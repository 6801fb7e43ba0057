import WordAsm.Proofs.EmissionFaults

/-!
Why a line cannot be read. A line cannot do what it says because of its tokens, its symbols or the
files that it names. The faults of whole texts and runs are not among these: a label in the middle
of a line, blocks that are not closed, layout that does not settle and lines without end.
-/
namespace WordAsm

namespace Fault

/-- A label that does not begin its line. -/
def isMisplaced : Fault → Bool
  | label (.misplaced ..) => true
  | _ => false

def isOfLine : Fault → Bool
  | label (.misplaced ..) | unterminated _ | notConverged _ | breakdown .endless => false
  | _ => true

theorem isOfLine_of_isEmitted {f : Fault} (emitted : f.isEmitted = true) : f.isOfLine = true := by
  unfold isEmitted at emitted
  split at emitted <;> first | rfl | cases emitted

theorem isMisplaced_of_isOfLine {f : Fault} (ofLine : f.isOfLine = true) :
    f.isMisplaced = false := by
  unfold isMisplaced
  split
  · cases ofLine
  · rfl

end Fault

/-- Every fault of a computation is one that reading a line can give. -/
abbrev Reads (x : Except Fault α) : Prop := FailsWith (fun f => f.isOfLine = true) x

theorem reads_error {f : Fault} (ofLine : f.isOfLine = true) :
    Reads (.error f : Except Fault α) := by
  intro f' failed
  cases failed
  exact ofLine

theorem Line.reads_operand (line : Line) : Reads line.operand := by
  unfold operand
  split
  · exact failsWith_ok _
  · exact reads_error rfl

theorem Signature.reads_read (tokens : List String) : Reads (read tokens) := by
  unfold read
  split
  · exact reads_error rfl
  · dsimp only
    repeat' split
    · exact reads_error rfl
    · exact reads_error rfl
    · exact failsWith_ok _

theorem Macro.reads_expand (m : Macro) (arguments : List String) (outer : Scope) :
    Reads (m.expand arguments outer) := by
  unfold expand
  split
  · exact reads_error rfl
  · exact failsWith_ok _

namespace Symbols

theorem reads_build (s : Symbols) (line : Line) (source : String) :
    Reads (s.build line source) := by
  unfold build
  split
  · exact reads_error rfl
  · split
    · exact failsWith_ok _
    · rename_i e simplified
      apply reads_error
      rcases Expr.simplify_error simplified with rfl | ⟨reason, rfl, ⟨name, asked⟩ | ⟨fn, a, asked⟩⟩
      · rfl
      · simp only [constantsOn, known] at asked
        repeat' split at asked
        all_goals cases asked
      · simp only [constantsOn, call] at asked
        repeat' split at asked
        all_goals cases asked
        rfl

theorem reads_literal (s : Symbols) (line : Line) (source : String) :
    Reads (s.literal line source) := by
  unfold literal
  split
  · rename_i failed
    exact (s.reads_build line source).error failed
  · exact failsWith_ok _
  · exact reads_error rfl

theorem reads_addLabel (s : Symbols) (name : String) (scope : Scope) (global : String)
    (label : Label) : Reads (accept (s.addLabel name scope global label)) := by
  unfold addLabel
  dsimp only
  repeat' split
  · exact reads_error rfl
  · exact reads_error rfl
  · exact reads_error rfl
  · exact failsWith_ok _

theorem reads_define (s : Symbols) (name : String) (value : Int64) :
    Reads (accept (s.define name value)) := by
  unfold define
  dsimp only
  repeat' split
  · exact reads_error rfl
  · exact reads_error rfl
  · exact reads_error rfl
  · exact failsWith_ok _

end Symbols

/-! Statements. -/

section

variable (s : Symbols) (line : Line)

theorem Operand.reads_read (token : String) : Reads (read s line token) := by
  unfold read
  dsimp only
  split
  · exact failsWith_ok _
  · split
    · exact failsWith_ok _
    · rename_i failed
      exact (s.reads_build line _).error failed

theorem Instruction.reads_read : Reads (read s line) := by
  unfold read
  split
  · exact reads_error rfl
  · split
    · refine failsWith_bind (Operand.reads_read s line _) fun a => ?_
      refine failsWith_bind (Operand.reads_read s line _) fun b => ?_
      exact failsWith_ok _
    · refine failsWith_bind (Operand.reads_read s line _) fun a => ?_
      exact failsWith_ok _
    · exact reads_error rfl

theorem StringFlags.reads_letter (f : StringFlags) (c : Char) : Reads (f.letter c) := by
  unfold letter conflict
  repeat' split
  all_goals first | exact failsWith_ok _ | exact reads_error rfl

theorem StringFlags.reads_readFrom {value : String → Except Fault Int64}
    (values : ∀ text, Reads (value text)) (all : String) (f : StringFlags) (skip : Nat)
    (cs : List Char) : Reads (readFrom value all f skip cs) := by
  induction cs generalizing f skip with
  | nil => exact failsWith_ok _
  | cons c rest ih =>
    unfold readFrom
    split
    · exact ih _ _
    · split
      · dsimp only
        split
        · exact reads_error rfl
        · split
          · rename_i failed
            exact (values _).error failed
          · exact ih _ _
      · split
        · rename_i failed
          exact (f.reads_letter c).error failed
        · exact ih _ _

theorem StringLiteral.reads_read {value : String → Except Fault Int64}
    (values : ∀ text, Reads (value text)) (code : String) : Reads (read value code) := by
  unfold read
  split
  · exact reads_error rfl
  · split
    · rename_i failed
      exact (StringFlags.reads_readFrom values _ _ _ _).error failed
    · dsimp only
      split
      · exact failsWith_ok _
      · exact reads_error rfl

theorem DataItem.reads_read (raw : String) : Reads (read s line raw) := by
  unfold read
  split
  · split
    · exact failsWith_ok _
    · rename_i failed
      exact (StringLiteral.reads_read (s.reads_literal line) raw).error failed
  · split
    · exact failsWith_ok _
    · rename_i failed
      exact (s.reads_build line raw).error failed

theorem DataItem.reads_readAll (tokens : List String) : Reads (readAll s line tokens) := by
  induction tokens with
  | nil => exact failsWith_ok _
  | cons raw rest ih =>
    refine failsWith_bind (reads_read s line raw) fun item => ?_
    refine failsWith_bind ih fun later => ?_
    exact failsWith_ok _

theorem Fill.reads_read : Reads (read s line) := by
  unfold read
  split
  · refine failsWith_bind (s.reads_build line _) fun length => ?_
    exact failsWith_ok _
  · refine failsWith_bind (s.reads_build line _) fun length => ?_
    refine failsWith_bind (s.reads_build line _) fun value => ?_
    exact failsWith_ok _
  · exact reads_error rfl

theorem Align.reads_read : Reads (read s line) := by
  unfold read
  split
  · refine failsWith_bind (s.reads_build line _) fun boundary => ?_
    exact failsWith_ok _
  · exact reads_error rfl

theorem Body.reads_read : Reads (read s line) := by
  have data : Reads (Data.read s line) :=
    failsWith_bind (DataItem.reads_readAll s line line.operands) fun _ => failsWith_ok _
  unfold read
  split
  · exact failsWith_bind (Align.reads_read s line) fun _ => failsWith_ok _
  iterate 4
    · exact failsWith_bind data fun _ => failsWith_ok _
  · exact failsWith_bind (Fill.reads_read s line) fun _ => failsWith_ok _
  · exact failsWith_bind (Instruction.reads_read s line) fun _ => failsWith_ok _

end

/-! What a line does. -/

section

variable (o : Options) (w : Work) (r : Reader) (line : Line)

theorem Work.reads_add : Reads (w.add line) := by
  refine failsWith_bind ?_ fun _ => failsWith_ok _
  exact failsWith_bind (Body.reads_read w.symbols line) fun _ => failsWith_ok _

theorem Work.reads_addLabel (global : String) : Reads (w.addLabel line global) :=
  failsWith_bind (w.symbols.reads_addLabel _ _ _ _) fun _ => failsWith_ok _

theorem Work.reads_define (operand : String) : Reads (w.define line operand) := by
  unfold define
  dsimp only
  split
  · exact reads_error rfl
  · split
    · refine failsWith_bind (failsWith_ok 1) fun value => ?_
      exact failsWith_bind (w.symbols.reads_define _ _) fun _ => failsWith_ok _
    · refine failsWith_bind (w.symbols.reads_literal line _) fun value => ?_
      exact failsWith_bind (w.symbols.reads_define _ _) fun _ => failsWith_ok _

theorem Include.reads_candidates (token : String) : Reads (candidates o line token) := by
  unfold candidates
  dsimp only
  split
  · exact failsWith_ok _
  · exact failsWith_ok _
  · exact reads_error rfl

theorem Include.reads_firstOf (files : FileStore) (paths : List String) :
    Reads (firstOf files paths) := by
  induction paths with
  | nil => exact failsWith_ok _
  | cons path rest ih =>
    unfold firstOf
    split
    · exact failsWith_ok _
    · split
      · exact ih
      · exact reads_error rfl

theorem Include.reads_find : Reads (find o w line) := by
  refine failsWith_bind line.reads_operand fun token => ?_
  refine failsWith_bind (reads_candidates o line token) fun paths => ?_
  refine failsWith_bind (reads_firstOf o.files paths) fun hit => ?_
  cases hit with
  | none => exact failsWith_ok _
  | some hit => exact failsWith_ok _

namespace Directive

theorem reads_holds (name : String) : Reads (holds w line name) := by
  refine failsWith_bind line.reads_operand fun operand => ?_
  exact failsWith_bind (w.symbols.reads_literal line _) fun _ => failsWith_ok _

theorem reads_openIf (name : String) : Reads (openIf w r line name) := by
  unfold openIf
  split
  · exact failsWith_bind (reads_holds w line name) fun _ => failsWith_ok _
  · exact failsWith_ok _

theorem reads_elseIf (name : String) : Reads (elseIf w r line name) := by
  unfold elseIf
  split
  · exact reads_error rfl
  · split
    · exact failsWith_ok _
    · exact failsWith_bind (reads_holds w line name) fun _ => failsWith_ok _

theorem reads_otherwise : Reads (otherwise r) := by
  unfold otherwise
  split
  · exact reads_error rfl
  · exact failsWith_ok _

theorem reads_openRep : Reads (openRep w r line) := by
  unfold openRep
  split
  · refine failsWith_bind line.reads_operand fun operand => ?_
    exact failsWith_bind (w.symbols.reads_literal line _) fun _ => failsWith_ok _
  · exact failsWith_ok _

theorem reads_openMacro : Reads (openMacro r line) := by
  unfold openMacro
  split
  · exact failsWith_bind (Signature.reads_read _) fun _ => failsWith_ok _
  · exact failsWith_ok _

theorem reads_close : Reads (close w r) := by
  unfold close
  split
  · exact reads_error rfl
  · split <;> exact failsWith_ok _

theorem reads_includeFile : Reads (includeFile o w r line) := by
  refine failsWith_bind (Include.reads_find o w line) fun found => ?_
  obtain ⟨noted, hit⟩ := found
  cases hit with
  | none => exact failsWith_ok _
  | some hit => exact failsWith_ok _

theorem reads_includeBytes : Reads (includeBytes o w line) := by
  refine failsWith_bind (Include.reads_find o w line) fun found => ?_
  obtain ⟨noted, hit⟩ := found
  cases hit with
  | none => exact failsWith_ok _
  | some hit => exact noted.reads_add _

theorem reads_onWork {made : Except Fault Work} (reads : Reads made) : Reads (onWork r made) :=
  failsWith_bind reads fun _ => failsWith_ok _

theorem reads_onReader {made : Except Fault Reader} (reads : Reads made) :
    Reads (onReader w made) := failsWith_bind reads fun _ => failsWith_ok _

theorem reads_apply (name : String) : Reads (apply o w r line name) := by
  have defined : Reads (do w.define line (← line.operand)) :=
    failsWith_bind line.reads_operand fun operand => w.reads_define line operand
  unfold apply
  split
  · exact reads_includeFile o w r line
  · exact reads_onWork r (reads_includeBytes o w line)
  iterate 3
    · exact reads_onWork r defined
  · exact reads_onWork r (failsWith_bind line.reads_operand fun _ => failsWith_ok _)
  · exact failsWith_ok _
  · exact reads_error rfl
  iterate 3
    · exact reads_onReader w (reads_openIf w r line _)
  iterate 3
    · exact reads_onReader w (reads_elseIf w r line _)
  · exact reads_onReader w (reads_otherwise r)
  · exact reads_onReader w (reads_openRep w r line)
  · exact reads_onReader w (reads_openMacro r line)
  · exact failsWith_bind (reads_close w r) fun _ => failsWith_ok _
  · refine reads_onWork r (failsWith_bind line.reads_operand fun operand => ?_)
    exact failsWith_bind (w.symbols.reads_literal line operand) fun _ => failsWith_ok _
  · split
    · exact reads_onWork r (w.reads_add line)
    · exact reads_error rfl

end Directive

namespace Reader

theorem reads_invoke : Reads (invoke w r line) := by
  refine failsWith_bind (Signature.reads_read _) fun call => ?_
  dsimp only
  split
  · exact reads_error rfl
  · exact failsWith_bind (Macro.reads_expand _ _ _) fun _ => failsWith_ok _

theorem reads_useLine : Reads (useLine w r line) := by
  unfold useLine
  split
  · exact reads_invoke w r line
  · split
    · exact failsWith_bind (w.reads_addLabel line _) fun _ => failsWith_ok _
    · split
      · exact reads_error rfl
      · exact failsWith_bind (w.reads_add line) fun _ => failsWith_ok _

theorem reads_handle : Reads (r.handle o w line) := by
  unfold handle
  split
  · split
    · exact Directive.reads_apply o w r line _
    · exact failsWith_ok _
  · split
    · exact failsWith_bind (reads_useLine w r line) fun _ => failsWith_ok _
    · exact failsWith_ok _

end Reader

end

end WordAsm
