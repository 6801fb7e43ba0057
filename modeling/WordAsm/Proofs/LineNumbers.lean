import WordAsm.Proofs.PreprocessRuns

/-!
Line numbers are for messages only. States of preprocessing that differ in them alone stay so, and
go on together until both fail or both finish.
-/
namespace WordAsm

/-- Both fail, or both give values that are related. -/
def AgreeOn {α β : Type} (related : α → β → Prop) : Except Fault α → Except Fault β → Prop
  | .ok a, .ok b => related a b
  | .error _, .error _ => True
  | _, _ => False

theorem AgreeOn.bind {α β γ δ : Type} {related : α → β → Prop} {related' : γ → δ → Prop}
    {x : Except Fault α} {y : Except Fault β} {f : α → Except Fault γ} {g : β → Except Fault δ}
    (agree : AgreeOn related x y) (later : ∀ a b, related a b → AgreeOn related' (f a) (g b)) :
    AgreeOn related' (x >>= f) (y >>= g) := by
  cases x with
  | error => cases y with
    | error => trivial
    | ok => cases agree
  | ok a => cases y with
    | error => cases agree
    | ok b => exact later a b agree

theorem agreeOn_self {α : Type} (x : Except Fault α) : AgreeOn (fun a b => b = a) x x := by
  cases x with
  | error => trivial
  | ok => rfl

/-! What is left without line numbers. -/

def Line.bare (line : Line) : Line := { line with number := 0 }

def Statement.bare (st : Statement) : Statement := { st with line := st.line.bare }

def Macro.bare (m : Macro) : Macro := { m with body := m.body.map Line.bare }

def Frame.bare (f : Frame) : Frame := { f with captured := f.captured.map Line.bare }

def Replay.bare (r : Replay) : Replay := ⟨r.level, r.body.map Line.bare, r.rest.map Line.bare⟩

/-- What else is only for messages is left open too: the file, the line that was last read, and
which fault comes after the lines. -/
def Reader.bare (r : Reader) : Reader where
  file := ""
  pending := r.pending.map Line.bare
  fault := r.fault.map fun _ => .tooManyEnds
  top := r.top.bare
  below := r.below.map Frame.bare
  replays := r.replays.map Replay.bare

/-- The work is the same but for line numbers and notes. -/
structure Work.Alike (w w' : Work) : Prop where
  symbols : w'.symbols = w.symbols
  macros : ∀ key : String, (w'.macros[key]?).map Macro.bare = (w.macros[key]?).map Macro.bare
  statements : w'.statements.map Statement.bare = w.statements.map Statement.bare
  origin : w'.origin = w.origin
  echo : w'.echo = w.echo

theorem Work.Alike.refl (w : Work) : w.Alike w := ⟨rfl, fun _ => rfl, rfl, rfl, rfl⟩

theorem Work.Alike.symm {w w' : Work} (same : w.Alike w') : w'.Alike w :=
  ⟨same.symbols.symm, fun key => (same.macros key).symm, same.statements.symm, same.origin.symm,
    same.echo.symm⟩

theorem Work.Alike.trans {w w' w'' : Work} (same : w.Alike w') (same' : w'.Alike w'') :
    w.Alike w'' :=
  ⟨same'.symbols.trans same.symbols, fun key => (same'.macros key).trans (same.macros key),
    same'.statements.trans same.statements, same'.origin.trans same.origin,
    same'.echo.trans same.echo⟩

/-! Reading does not look at the number of a line. -/

section

variable (s : Symbols) (line : Line) (n : Nat)

theorem Symbols.build_number (source : String) :
    s.build { line with number := n } source = s.build line source := by
  have resolver : s.constantsOn { line with number := n } = s.constantsOn line := rfl
  simp only [build, resolver]

theorem Symbols.literal_number (source : String) :
    s.literal { line with number := n } source = s.literal line source := by
  simp only [literal, build_number]

theorem DataItem.readAll_number (tokens : List String) :
    readAll s { line with number := n } tokens = readAll s line tokens := by
  induction tokens with
  | nil => rfl
  | cons raw rest ih =>
    have value : s.literal { line with number := n } = s.literal line :=
      funext (s.literal_number line n)
    simp only [readAll, read, value, Symbols.build_number, ih]

theorem Operand.read_number (token : String) :
    read s { line with number := n } token = read s line token := by
  have built := s.build_number line n (Text.trim token)
  unfold read
  dsimp only
  rw [built]

theorem Instruction.read_number : read s { line with number := n } = read s line := by
  have first : Line.first { line with number := n } = line.first := rfl
  have operands : Line.operands { line with number := n } = line.operands := rfl
  unfold read
  rw [first, operands]
  simp only [Operand.read_number]

theorem Body.read_number : read s { line with number := n } = read s line := by
  have first : Line.first { line with number := n } = line.first := rfl
  have operands : Line.operands { line with number := n } = line.operands := rfl
  have data : Data.read s { line with number := n } = Data.read s line := by
    simp only [Data.read, operands, first, DataItem.readAll_number]
  have fill : Fill.read s { line with number := n } = Fill.read s line := by
    simp only [Fill.read, operands, Symbols.build_number]
  have align : Align.read s { line with number := n } = Align.read s line := by
    simp only [Align.read, operands, Symbols.build_number]
  simp only [read, first, data, fill, align, Instruction.read_number]

end

theorem Line.exists_number {line line' : Line} (same : line'.bare = line.bare) :
    ∃ n, line' = { line with number := n } := by
  refine ⟨line'.number, ?_⟩
  cases line
  cases line'
  simp only [bare, mk.injEq, and_true] at same
  obtain ⟨rfl, rfl, rfl, rfl⟩ := same
  rfl

namespace Work

variable {w w' : Work}

theorem alike_add (same : w.Alike w') (line : Line) (n : Nat) :
    AgreeOn Alike (w.add line) (w'.add { line with number := n }) := by
  simp only [add, Statement.read, same.symbols, Body.read_number]
  cases Body.read w.symbols line with
  | error => trivial
  | ok body =>
    exact ⟨rfl, same.macros, by simp [same.statements, Statement.bare, Line.bare], same.origin,
      same.echo⟩

theorem alike_addLabel (same : w.Alike w') (line : Line) (n : Nat) (global : String) :
    AgreeOn (fun a b => a.1.Alike b.1 ∧ b.2 = a.2) (w.addLabel line global)
      (w'.addLabel { line with number := n } global) := by
  have length : w'.statements.length = w.statements.length := by
    simpa using congrArg List.length same.statements
  have first : Line.first { line with number := n } = line.first := rfl
  simp only [addLabel, same.symbols, same.origin, length, first]
  refine (agreeOn_self _).bind ?_
  rintro ⟨symbols, global'⟩ _ rfl
  exact ⟨⟨rfl, same.macros, same.statements, rfl, same.echo⟩, rfl⟩

theorem alike_define (same : w.Alike w') (line : Line) (n : Nat) (operand : String) :
    AgreeOn Alike (w.define line operand) (w'.define { line with number := n } operand) := by
  have defined (name : String) (value : Int64) :
      AgreeOn Alike (do return { w with symbols := ← accept (w.symbols.define name value) })
        (do return { w' with symbols := ← accept (w.symbols.define name value) }) := by
    refine (agreeOn_self _).bind ?_
    rintro symbols _ rfl
    exact ⟨rfl, same.macros, same.statements, same.origin, same.echo⟩
  simp only [define, Symbols.literal_number, same.symbols]
  split
  · trivial
  · split
    · exact defined _ 1
    · refine (agreeOn_self _).bind ?_
      rintro _ _ rfl
      exact defined _ _

end Work

theorem Frame.bare_captureAll (line : Line) (frames : List Frame) :
    (captureAll line frames).map bare = captureAll line.bare (frames.map bare) := by
  induction frames with
  | nil => rfl
  | cons f rest ih =>
    have replaying : f.bare.isReplaying = f.isReplaying := rfl
    have one : (f.capture line).bare = f.bare.capture line.bare := by
      unfold capture
      have captures : f.bare.captures = f.captures := rfl
      rw [captures]
      split <;> rfl
    simp only [captureAll, List.map_cons, replaying]
    split
    · rfl
    · simp only [List.map_cons, one, ih]

theorem Frame.fields_of_bare {f f' : Frame} (same : f'.bare = f.bare) :
    f'.kind = f.kind ∧ f'.isActive = f.isActive ∧ f'.isSettled = f.isSettled ∧
      f'.remaining = f.remaining ∧ f'.captured.map Line.bare = f.captured.map Line.bare ∧
      f'.isReplaying = f.isReplaying ∧ f'.global = f.global := by
  simpa only [bare, mk.injEq] using same

namespace Reader

variable {r r' : Reader}

theorem top_of_bare (same : r'.bare = r.bare) : r'.top.bare = r.top.bare := congrArg top same

theorem bare_top {f f' : Frame} (same : r'.bare = r.bare) (sameTop : f'.bare = f.bare) :
    ({ r' with top := f' } : Reader).bare = ({ r with top := f } : Reader).bare := by
  change { r'.bare with top := f'.bare } = { r.bare with top := f.bare }
  rw [same, sameTop]

theorem bare_source {pending pending' : List Line} {replays replays' : List Replay}
    (same : r'.bare = r.bare) (samePending : pending'.map Line.bare = pending.map Line.bare)
    (sameReplays : replays'.map Replay.bare = replays.map Replay.bare) :
    ({ r' with pending := pending', replays := replays' } : Reader).bare =
      ({ r with pending, replays } : Reader).bare := by
  change { r'.bare with pending := pending'.map Line.bare, replays := replays'.map Replay.bare } =
    { r.bare with pending := pending.map Line.bare, replays := replays.map Replay.bare }
  rw [same, samePending, sameReplays]

theorem bare_capture (line : Line) (r : Reader) :
    (r.capture line).bare = r.bare.capture line.bare := by
  have all := Frame.bare_captureAll line r.frames
  have frames : r.frames.map Frame.bare = r.bare.frames := rfl
  rw [frames] at all
  unfold capture
  rw [← all]
  cases Frame.captureAll line r.frames with
  | nil => rfl
  | cons top below => rfl

theorem bare_push (f : Frame) (r : Reader) : (r.push f).bare = r.bare.push f.bare := rfl

theorem bare_pushReplay (f : Frame) (body : List Line) (r : Reader) :
    (r.pushReplay f body).bare = r.bare.pushReplay f.bare (body.map Line.bare) := by
  have length : r.bare.below.length = r.below.length := List.length_map _
  unfold pushReplay
  rw [length]
  rfl

theorem bare_isSource (r : Reader) : r.bare.isSource = r.isSource := by
  have length : r.bare.below.length = r.below.length := List.length_map _
  simp only [isSource, length]
  cases stack : r.replays <;> simp [bare, stack, Replay.bare]

theorem bare_pop (outer : Frame) (below : List Frame) (r : Reader) :
    (r.pop outer below).bare = r.bare.pop outer.bare (below.map Frame.bare) := by
  unfold pop
  rw [bare_isSource]
  cases r.isSource with
  | false => rfl
  | true =>
    simp only [bare, if_true, List.map_drop]
    rfl

theorem bare_replayTop (r : Reader) : r.replayTop.bare = r.bare.replayTop := by
  have replaying : r.bare.top.isReplaying = r.top.isReplaying := rfl
  unfold replayTop
  simp only [replaying]
  split
  · cases h : r.replays with
    | nil => simp [bare, h, Frame.bare]
    | cons replay rest => simp [bare, h, Frame.bare, Replay.bare]
  · simp [bare, Frame.bare, Replay.bare]

end Reader

namespace Directive

/-- Both fail, or both leave alike work and readers. -/
def AlikeResult : Result → Result → Prop :=
  AgreeOn fun a b => a.1.Alike b.1 ∧ b.2.map Reader.bare = a.2.map Reader.bare

section

variable {o : Options} {w w' : Work} {r r' : Reader}

theorem alike_onWork {made made' : Except Fault Work} (agree : AgreeOn Work.Alike made made')
    (sameReader : r'.bare = r.bare) : AlikeResult (onWork r made) (onWork r' made') := by
  refine agree.bind ?_
  intro a b same
  exact ⟨same, by simp [sameReader]⟩

theorem alike_onReader {made made' : Except Fault Reader}
    (agree : AgreeOn (fun a b => b.bare = a.bare) made made') (same : w.Alike w') :
    AlikeResult (onReader w made) (onReader w' made') := by
  refine agree.bind ?_
  intro a b sameReader
  exact ⟨same, by simp [sameReader]⟩

theorem holds_number (same : w.Alike w') (line : Line) (n : Nat) (name : String) :
    holds w' { line with number := n } name = holds w line name := by
  have operand : Line.operand { line with number := n } = line.operand := rfl
  simp only [holds, operand, same.symbols, Symbols.literal_number]

theorem alike_push (sameReader : r'.bare = r.bare) (f : Frame) :
    (r'.push f).bare = (r.push f).bare := by
  rw [Reader.bare_push, Reader.bare_push, sameReader]

theorem alike_openIf (same : w.Alike w') (sameReader : r'.bare = r.bare) (line : Line) (n : Nat)
    (name : String) :
    AgreeOn (fun a b => b.bare = a.bare) (openIf w r line name)
      (openIf w' r' { line with number := n } name) := by
  obtain ⟨_, active, _⟩ := Frame.fields_of_bare (Reader.top_of_bare sameReader)
  simp only [openIf, active, holds_number same]
  split
  · refine (agreeOn_self _).bind ?_
    rintro _ _ rfl
    exact alike_push sameReader _
  · exact alike_push sameReader _

theorem alike_elseIf (same : w.Alike w') (sameReader : r'.bare = r.bare) (line : Line) (n : Nat)
    (name : String) :
    AgreeOn (fun a b => b.bare = a.bare) (elseIf w r line name)
      (elseIf w' r' { line with number := n } name) := by
  obtain ⟨kind, active, settled, remaining, captured, replaying, global⟩ :=
    Frame.fields_of_bare (Reader.top_of_bare sameReader)
  simp only [elseIf, kind, settled, holds_number same]
  split
  · trivial
  · split
    · exact Reader.bare_top sameReader
        (by simp [Frame.bare, remaining, captured, replaying, global])
    · refine (agreeOn_self _).bind ?_
      rintro _ _ rfl
      exact Reader.bare_top sameReader
        (by simp [Frame.bare, remaining, captured, replaying, global])

theorem alike_otherwise (sameReader : r'.bare = r.bare) :
    AgreeOn (fun a b => b.bare = a.bare) (otherwise r) (otherwise r') := by
  obtain ⟨kind, active, settled, remaining, captured, replaying, global⟩ :=
    Frame.fields_of_bare (Reader.top_of_bare sameReader)
  simp only [otherwise, kind, settled]
  split
  · trivial
  · exact Reader.bare_top sameReader (by simp [Frame.bare, remaining, captured, replaying, global])

theorem alike_openRep (same : w.Alike w') (sameReader : r'.bare = r.bare) (line : Line) (n : Nat) :
    AgreeOn (fun a b => b.bare = a.bare) (openRep w r line)
      (openRep w' r' { line with number := n }) := by
  obtain ⟨_, active, _⟩ := Frame.fields_of_bare (Reader.top_of_bare sameReader)
  have operand : Line.operand { line with number := n } = line.operand := rfl
  simp only [openRep, active, operand, same.symbols, Symbols.literal_number]
  split
  · refine (agreeOn_self _).bind ?_
    rintro _ _ rfl
    refine (agreeOn_self _).bind ?_
    rintro _ _ rfl
    exact alike_push sameReader _
  · exact alike_push sameReader _

theorem alike_openMacro (sameReader : r'.bare = r.bare) (line : Line) (n : Nat) :
    AgreeOn (fun a b => b.bare = a.bare) (openMacro r line)
      (openMacro r' { line with number := n }) := by
  obtain ⟨_, active, _⟩ := Frame.fields_of_bare (Reader.top_of_bare sameReader)
  have operands : Line.operands { line with number := n } = line.operands := rfl
  simp only [openMacro, active, operands]
  split
  · refine (agreeOn_self _).bind ?_
    rintro _ _ rfl
    exact alike_push sameReader _
  · exact alike_push sameReader _

theorem alike_register (same : w.Alike w') {f f' : Frame} (sameFrame : f'.bare = f.bare) :
    (register w f).Alike (register w' f') := by
  obtain ⟨kind, _, _, _, captured, _⟩ := Frame.fields_of_bare sameFrame
  simp only [register, kind]
  split
  · refine ⟨same.symbols, ?_, same.statements, same.origin, same.echo⟩
    intro key
    simp only [Std.TreeMap.getElem?_insert]
    split
    · simp [Macro.bare, captured]
    · exact same.macros key
  · exact same

theorem alike_close (same : w.Alike w') (sameReader : r'.bare = r.bare) :
    AgreeOn (fun a b => a.1.Alike b.1 ∧ b.2.bare = a.2.bare) (close w r) (close w' r') := by
  have top := Reader.top_of_bare sameReader
  obtain ⟨kind, _, _, remaining, _⟩ := Frame.fields_of_bare top
  have below : r'.below.map Frame.bare = r.below.map Frame.bare :=
    congrArg Reader.below sameReader
  unfold close
  rw [kind, remaining]
  cases stack : r.below with
  | nil =>
    rw [stack, List.map_nil, List.map_eq_nil_iff] at below
    rw [below]
    trivial
  | cons outer rest =>
    rw [stack] at below
    cases stack' : r'.below with
    | nil =>
      rw [stack'] at below
      cases below
    | cons outer' rest' =>
      rw [stack'] at below
      obtain ⟨sameOuter, sameRest⟩ := List.cons.inj below
      simp only
      split
      · refine ⟨same, ?_⟩
        rw [Reader.bare_replayTop, Reader.bare_replayTop, sameReader]
      · refine ⟨alike_register same top, ?_⟩
        rw [Reader.bare_pop, Reader.bare_pop, sameReader, sameOuter, sameRest]

theorem alike_find (same : w.Alike w') (line : Line) (n : Nat) :
    AgreeOn (fun a b => a.1.Alike b.1 ∧ b.2 = a.2) (Include.find o w line)
      (Include.find o w' { line with number := n }) := by
  have operand : Line.operand { line with number := n } = line.operand := rfl
  have candidates (token : String) : Include.candidates o { line with number := n } token =
    Include.candidates o line token := rfl
  simp only [Include.find, operand, candidates]
  refine (agreeOn_self _).bind ?_
  rintro _ token rfl
  refine (agreeOn_self _).bind ?_
  rintro _ paths rfl
  refine (agreeOn_self _).bind ?_
  rintro _ hit rfl
  cases hit with
  | none => exact ⟨⟨same.symbols, same.macros, same.statements, same.origin, same.echo⟩, rfl⟩
  | some hit => exact ⟨same, rfl⟩

theorem alike_includeFile (same : w.Alike w') (sameReader : r'.bare = r.bare) (line : Line)
    (n : Nat) :
    AlikeResult (includeFile o w r line) (includeFile o w' r' { line with number := n }) := by
  obtain ⟨_, _, _, _, _, _, global⟩ := Frame.fields_of_bare (Reader.top_of_bare sameReader)
  simp only [includeFile, global]
  refine (alike_find same line n).bind ?_
  rintro ⟨a, _⟩ ⟨b, hit⟩ ⟨noted, rfl⟩
  cases hit with
  | none => exact ⟨noted, by simp [sameReader]⟩
  | some hit =>
    exact ⟨⟨noted.symbols, noted.macros, noted.statements, noted.origin, noted.echo⟩,
      by simp [sameReader]⟩

theorem alike_includeBytes (same : w.Alike w') (line : Line) (n : Nat) :
    AgreeOn Work.Alike (includeBytes o w line) (includeBytes o w' { line with number := n }) := by
  refine (alike_find same line n).bind ?_
  rintro ⟨a, _⟩ ⟨b, hit⟩ ⟨noted, rfl⟩
  cases hit with
  | none => exact noted
  | some hit => exact Work.alike_add noted (Include.dataLine line hit.2) n

theorem alike_apply (same : w.Alike w') (sameReader : r'.bare = r.bare) (line : Line) (n : Nat)
    (name : String) :
    AlikeResult (apply o w r line name) (apply o w' r' { line with number := n } name) := by
  have operand : Line.operand { line with number := n } = line.operand := rfl
  have joined : joined { line with number := n } = joined line := rfl
  unfold apply
  split
  · exact alike_includeFile same sameReader line n
  · exact alike_onWork (alike_includeBytes same line n) sameReader
  iterate 3
    · refine alike_onWork ?_ sameReader
      rw [operand]
      refine (agreeOn_self _).bind ?_
      rintro _ operand rfl
      exact Work.alike_define same line n operand
  · refine alike_onWork ?_ sameReader
    rw [operand]
    refine (agreeOn_self _).bind ?_
    rintro _ operand rfl
    exact ⟨by rw [same.symbols], same.macros, same.statements, same.origin, same.echo⟩
  · rw [joined]
    exact ⟨⟨same.symbols, same.macros, same.statements, same.origin, by rw [same.echo]⟩,
      by simp [sameReader]⟩
  · trivial
  iterate 3 exact alike_onReader (alike_openIf same sameReader line n _) same
  iterate 3 exact alike_onReader (alike_elseIf same sameReader line n _) same
  · exact alike_onReader (alike_otherwise sameReader) same
  · exact alike_onReader (alike_openRep same sameReader line n) same
  · exact alike_onReader (alike_openMacro sameReader line n) same
  · refine (alike_close same sameReader).bind ?_
    rintro ⟨a, top⟩ ⟨b, top'⟩ ⟨closed, sameTop⟩
    exact ⟨closed, by simp [sameTop]⟩
  · refine alike_onWork ?_ sameReader
    rw [operand, same.symbols]
    refine (agreeOn_self _).bind ?_
    rintro _ operand rfl
    rw [Symbols.literal_number]
    refine (agreeOn_self _).bind ?_
    rintro _ value rfl
    exact ⟨rfl, same.macros, same.statements, rfl, same.echo⟩
  · split
    · exact alike_onWork (Work.alike_add same line n) sameReader
    · trivial

end

end Directive

namespace Macro

theorem alike_expand {m m' : Macro} (same : m'.bare = m.bare) (arguments : List String)
    (outer : Scope) :
    AgreeOn (fun a b => b.1.bare = a.1.bare ∧ b.2.map Line.bare = a.2.map Line.bare)
      (m.expand arguments outer) (m'.expand arguments outer) := by
  simp only [bare, mk.injEq] at same
  obtain ⟨name, params, body, count⟩ := same
  have expanded (bindings : List (String × String)) (scope : Scope) :
      (m'.body.map (expandLine bindings scope)).map Line.bare =
        (m.body.map (expandLine bindings scope)).map Line.bare := by
    have commutes : Line.bare ∘ expandLine bindings scope =
      expandLine bindings scope ∘ Line.bare := rfl
    rw [List.map_map, List.map_map, commutes, ← List.map_map, ← List.map_map, body]
  simp only [expand, params, fragment, name, count]
  split
  · trivial
  · exact ⟨by simp [bare, body], expanded _ _⟩

end Macro

namespace Reader

section

variable {o : Options} {w w' : Work} {r r' : Reader}

theorem alike_invoke (same : w.Alike w') (sameReader : r'.bare = r.bare) (line : Line) (n : Nat) :
    AgreeOn (fun a b => a.1.Alike b.1 ∧ b.2.bare = a.2.bare) (invoke w r line)
      (invoke w' r' { line with number := n }) := by
  simp only [invoke]
  refine (agreeOn_self _).bind ?_
  rintro _ call rfl
  have found := same.macros (Text.upper call.name)
  cases known : w.macros[Text.upper call.name]? with
  | none =>
    rw [known, Option.map_none, Option.map_eq_none_iff] at found
    rw [found]
    trivial
  | some m =>
    rw [known, Option.map_some] at found
    obtain ⟨m', known', sameMacro⟩ := Option.map_eq_some_iff.1 found
    rw [known']
    refine (Macro.alike_expand sameMacro call.arguments line.scope).bind ?_
    rintro ⟨counted, body⟩ ⟨counted', body'⟩ ⟨sameCounted, sameBody⟩
    refine ⟨⟨same.symbols, ?_, same.statements, same.origin, same.echo⟩, ?_⟩
    · intro key
      simp only [Std.TreeMap.getElem?_insert]
      split
      · simp only [Option.map_some, sameCounted]
      · exact same.macros key
    · simp only [bare_pushReplay, sameReader, sameBody, Frame.bare, List.map_reverse]

theorem alike_useLine (same : w.Alike w') (sameReader : r'.bare = r.bare) (line : Line) (n : Nat) :
    AgreeOn (fun a b => a.1.Alike b.1 ∧ b.2.bare = a.2.bare) (useLine w r line)
      (useLine w' r' { line with number := n }) := by
  obtain ⟨kind, active, settled, remaining, captured, replaying, global⟩ :=
    Frame.fields_of_bare (top_of_bare sameReader)
  have first : Line.first { line with number := n } = line.first := rfl
  simp only [useLine, first]
  split
  · exact alike_invoke same sameReader line n
  · split
    · rw [global]
      refine (Work.alike_addLabel same line n _).bind ?_
      rintro ⟨labelled, _⟩ ⟨labelled', after⟩ ⟨sameWork, rfl⟩
      exact ⟨sameWork, bare_top sameReader (by
        simp [Frame.bare, kind, active, settled, remaining, captured, replaying])⟩
    · split
      · trivial
      · refine (Work.alike_add same line n).bind ?_
        intro a b added
        exact ⟨added, sameReader⟩

theorem alike_handle (same : w.Alike w') (sameReader : r'.bare = r.bare) (line : Line) (n : Nat) :
    Directive.AlikeResult (r.handle o w line) (r'.handle o w' { line with number := n }) := by
  obtain ⟨_, active, _⟩ := Frame.fields_of_bare (top_of_bare sameReader)
  have first : Line.first { line with number := n } = line.first := rfl
  simp only [handle, first, active]
  split
  · split
    · exact Directive.alike_apply same sameReader line n _
    · exact ⟨same, by simp [sameReader]⟩
  · split
    · refine (alike_useLine same sameReader line n).bind ?_
      rintro ⟨used, top⟩ ⟨used', top'⟩ ⟨sameUsed, sameTop⟩
      exact ⟨sameUsed, by simp [sameTop]⟩
    · exact ⟨same, by simp [sameReader]⟩

end

end Reader

namespace Preprocess

/-- The states are the same but for line numbers. -/
structure Alike (p p' : Preprocess) : Prop where
  work : p.work.Alike p'.work
  readers : p'.readers.map Reader.bare = p.readers.map Reader.bare

theorem Alike.symm {p p' : Preprocess} (same : p.Alike p') : p'.Alike p :=
  ⟨same.work.symm, same.readers.symm⟩

/-- One step from two states: both go on, both are done, or both fail. -/
inductive AlikeOutcome : Outcome → Outcome → Prop where
  | more {next next' : Preprocess} (same : next.Alike next') :
      AlikeOutcome (.more next) (.more next')
  | done {w w' : Work} (same : w.Alike w') : AlikeOutcome (.done w) (.done w')
  | failed (w w' : Work) (failure failure' : Failure) :
      AlikeOutcome (.failed w failure) (.failed w' failure')

section

variable {o : Options} {w w' : Work} {r r' : Reader} {outer outer' : List Reader}
  {line line' : Line}

theorem canonical_number (line : Line) (n : Nat) :
    canonical { line with number := n } = { canonical line with number := n } := by
  obtain ⟨tokens, global, scope, file, number⟩ := line
  unfold canonical
  cases tokens with
  | nil => rfl
  | cons first rest =>
    simp only
    split
    · split <;> rfl
    · rfl

theorem alike_readLine (same : w.Alike w') (sameReader : r'.bare = r.bare)
    (sameOuter : outer'.map Reader.bare = outer.map Reader.bare)
    (sameLine : line'.bare = line.bare) :
    AlikeOutcome (readLine o w r outer line) (readLine o w' r' outer' line') := by
  obtain ⟨n, rfl⟩ := Line.exists_number sameLine
  obtain ⟨_, active, _, _, _, _, global⟩ := Frame.fields_of_bare (Reader.top_of_bare sameReader)
  simp only [readLine, active, global]
  generalize named : ({ line with global := r.top.global } : Line) = here
  have named' : ({ line with number := n, global := r.top.global } : Line) =
      { here with number := n } := by rw [← named]
  simp only [named']
  have captured : (r'.capture { here with number := n }).bare = (r.capture here).bare := by
    rw [Reader.bare_capture, Reader.bare_capture, sameReader]
    rfl
  generalize shown : (if r.top.isActive then canonical here else here) = used
  have shown' : (if r.top.isActive then canonical { here with number := n }
      else { here with number := n }) = { used with number := n } := by
    rw [canonical_number, ← shown]
    split <;> rfl
  simp only [shown']
  have handled := @Reader.alike_handle o w w' { r.capture here with last := some used }
    { r'.capture { here with number := n } with last := some { used with number := n } } same
    captured used n
  revert handled
  generalize Reader.handle o w { r.capture here with last := some used } used = x
  generalize Reader.handle o w' { r'.capture { here with number := n } with
    last := some { used with number := n } } { used with number := n } = y
  intro handled
  cases x with
  | error fault =>
    cases y with
    | error fault' => exact .failed _ _ _ _
    | ok => cases handled
  | ok a =>
    cases y with
    | error => cases handled
    | ok b =>
      refine .more ⟨handled.1, ?_⟩
      simp only [List.map_append, handled.2, sameOuter]

theorem alike_endFile (same : w.Alike w') (sameReader : r'.bare = r.bare)
    (sameOuter : outer'.map Reader.bare = outer.map Reader.bare) :
    AlikeOutcome (endFile w r outer) (endFile w' r' outer') := by
  have fault := congrArg Reader.fault sameReader
  have below : r'.below.map Frame.bare = r.below.map Frame.bare :=
    congrArg Reader.below sameReader
  have empty : r'.below.isEmpty = r.below.isEmpty := by
    rw [← List.isEmpty_map, below, List.isEmpty_map]
  simp only [Reader.bare] at fault
  unfold endFile
  cases faulty : r.fault with
  | some f =>
    rw [faulty, Option.map_some] at fault
    obtain ⟨f', faulty', _⟩ := Option.map_eq_some_iff.1 fault
    rw [faulty']
    exact .failed _ _ _ _
  | none =>
    rw [faulty, Option.map_none, Option.map_eq_none_iff] at fault
    rw [fault, empty]
    simp only
    split
    · exact .more ⟨same, sameOuter⟩
    · exact .failed _ _ _ _

theorem alike_step {p p' : Preprocess} (same : p.Alike p') :
    AlikeOutcome (step o p) (step o p') := by
  obtain ⟨w, readers⟩ := p
  obtain ⟨w', readers'⟩ := p'
  obtain ⟨sameWork, sameReaders⟩ := same
  cases readers with
  | nil =>
    rw [List.map_nil, List.map_eq_nil_iff] at sameReaders
    cases sameReaders
    exact .done sameWork
  | cons r outer =>
    obtain ⟨r', outer', rfl, sameReader, sameOuter⟩ := List.map_eq_cons_iff.1 sameReaders
    have replays : r'.replays.map Replay.bare = r.replays.map Replay.bare :=
      congrArg Reader.replays sameReader
    have pending : r'.pending.map Line.bare = r.pending.map Line.bare :=
      congrArg Reader.pending sameReader
    simp only [step]
    cases stack : r.replays with
    | nil =>
      rw [stack, List.map_nil, List.map_eq_nil_iff] at replays
      rw [replays]
      cases lines : r.pending with
      | nil =>
        rw [lines, List.map_nil, List.map_eq_nil_iff] at pending
        rw [pending]
        exact alike_endFile sameWork sameReader sameOuter
      | cons line rest =>
        rw [lines] at pending
        obtain ⟨line', rest', lines', sameLine, sameRest⟩ := List.map_eq_cons_iff.1 pending
        rw [lines']
        exact alike_readLine sameWork (Reader.bare_source sameReader sameRest rfl) sameOuter
          sameLine
    | cons replay below =>
      rw [stack] at replays
      obtain ⟨replay', below', stack', sameReplay, sameBelow⟩ := List.map_eq_cons_iff.1 replays
      simp only [Replay.bare, Replay.mk.injEq] at sameReplay
      obtain ⟨sameLevel, sameBody, sameLines⟩ := sameReplay
      simp only [stack']
      cases lines : replay.rest with
      | nil =>
        rw [lines, List.map_nil, List.map_eq_nil_iff] at sameLines
        rw [sameLines]
        exact .failed _ _ _ _
      | cons line rest =>
        rw [lines] at sameLines
        obtain ⟨line', rest', lines', sameLine, sameRest⟩ := List.map_eq_cons_iff.1 sameLines
        rw [lines']
        refine alike_readLine sameWork (Reader.bare_source sameReader pending ?_) sameOuter sameLine
        simp only [List.map_cons, Replay.bare, sameLevel, sameBody, sameRest, sameBelow]

theorem Alike.finishes {p p' : Preprocess} (same : p.Alike p') (finishes : Finishes o p w) :
    ∃ w', Finishes o p' w' ∧ w.Alike w' := by
  refine @Finishes.simulate o w Alike Work.Alike ?_ p p' same finishes
  intro p p' same
  have step := @alike_step o p p' same
  generalize Preprocess.step o p = x at step
  generalize Preprocess.step o p' = y at step
  cases step with
  | more next => exact .inl ⟨_, _, rfl, rfl, next⟩
  | done last => exact .inr (.inl ⟨_, _, rfl, rfl, last⟩)
  | failed _ _ failure => exact .inr (.inr ⟨_, failure, rfl⟩)

theorem Alike.reaches {p p' q : Preprocess} (same : p.Alike p') (reaches : Reaches o p q) :
    ∃ q', Reaches o p' q' ∧ q.Alike q' := by
  induction reaches with
  | refl => exact ⟨p', .refl, same⟩
  | tail _ first ih =>
    obtain ⟨q', reaches', sameHere⟩ := ih
    have step := @alike_step o _ _ sameHere
    rw [first] at step
    generalize next : Preprocess.step o q' = y at step
    cases step with
    | more sameNext => exact ⟨_, reaches'.tail next, sameNext⟩

end

end Preprocess

end WordAsm
