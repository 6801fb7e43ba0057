import WordAsm.Proofs.LayoutLineNumbers
import WordAsm.Proofs.SkippedBlocks
import WordAsm.Proofs.Surroundings
import WordAsm.Proofs.WholeLines

/-!
Conditional blocks. Main statement: a source in which a block with any number of branches stands
means the same as the source with the text of its first true branch in place of the block. What
stands in the other branches makes no difference.
-/
namespace WordAsm

/-- A text of whole lines whose blocks match. -/
structure BalancedText where
  text : String
  lines : List (List String)
  whole : Tokenizer.wholeLines? text = some lines
  balanced : BlockFlow.isBalanced [] lines = true
  deriving DecidableEq

def BalancedText.empty : BalancedText := ⟨"", [], by decide +kernel, rfl⟩

namespace Conditional

structure Head where
  text : String
  tokens : List String
  name : String
  whole : Tokenizer.wholeLines? text = some [tokens]
  named : Token.directive? (tokens.headD "") = some name

/-- A condition and the text that it is for. -/
structure Branch where
  head : Head
  directive : String
  operand : String
  tokens : head.tokens = [directive, operand]
  body : BalancedText

inductive Rest where
  | ending (head : Head) (closes : head.name = "end")
  | otherwise (head : Head) (isElse : head.name = "else") (body : BalancedText) (closing : Head)
      (closes : closing.name = "end")
  | branch (b : Branch) (continues : b.head.name ∈ ["elif", "elsif", "elseif"]) (rest : Rest)

def Branch.text (b : Branch) : String := b.head.text ++ b.body.text

def Branch.lines (b : Branch) : List (List String) := b.head.tokens :: b.body.lines

namespace Rest

def text : Rest → String
  | ending head _ => head.text
  | otherwise head _ body closing _ => head.text ++ body.text ++ closing.text
  | branch b _ rest => b.text ++ rest.text

def lines : Rest → List (List String)
  | ending head _ => [head.tokens]
  | otherwise head _ body closing _ => head.tokens :: (body.lines ++ [closing.tokens])
  | branch b _ rest => b.lines ++ rest.lines

end Rest

/-- The value of a condition after this work, in this namespace of local labels. -/
def Branch.value (w : Work) (global file : String) (b : Branch) : Except Fault Int64 :=
  w.symbols.literal ⟨b.head.tokens, global, [], file, 0⟩
    (Directive.condition b.head.name b.operand)

def Branch.choose (value : Branch → Except Fault Int64) (b : Branch)
    (other : Option BalancedText) : Option BalancedText :=
  match value b with
  | .ok v => if v = 0 then other else some b.body
  | .error _ => none

/-- The text of the first branch whose condition is not zero. -/
def Rest.taken? (value : Branch → Except Fault Int64) : Rest → Option BalancedText
  | ending _ _ => some .empty
  | otherwise _ _ body _ _ => some body
  | branch b _ rest => b.choose value (rest.taken? value)

end Conditional

open Conditional in
/-- A conditional block. -/
structure Conditional where
  first : Branch
  opens : BlockFlow.ofName? first.head.name = some (.opening true)
  rest : Rest

namespace Conditional

def text (c : Conditional) : String := c.first.text ++ c.rest.text

def lines (c : Conditional) : List (List String) := c.first.lines ++ c.rest.lines

def taken? (value : Branch → Except Fault Int64) (c : Conditional) : Option BalancedText :=
  c.first.choose value (c.rest.taken? value)

end Conditional

namespace Tokenizer

def Begins (text : String) (lines : List (List String)) : Prop :=
  ∀ file rest, (tokenize file (text ++ rest)).lines.map Line.bare =
      lines.map (lineOf file) ++ (tokenize file rest).lines.map Line.bare ∧
    (tokenize file (text ++ rest)).fault.map (fun _ => Fault.tooManyEnds) =
      (tokenize file rest).fault.map fun _ => Fault.tooManyEnds

theorem Begins.append {a b : String} {as bs : List (List String)} (first : Begins a as)
    (second : Begins b bs) : Begins (a ++ b) (as ++ bs) := by
  intro file rest
  obtain ⟨lines, fault⟩ := first file (b ++ rest)
  obtain ⟨lines', fault'⟩ := second file rest
  rw [String.append_assoc, lines, fault, lines', fault', List.map_append, List.append_assoc]
  exact ⟨rfl, rfl⟩

end Tokenizer

namespace Conditional

theorem Head.begins (head : Head) : Tokenizer.Begins head.text [head.tokens] :=
  Tokenizer.tokenize_append head.whole

theorem begins_body (body : BalancedText) : Tokenizer.Begins body.text body.lines :=
  Tokenizer.tokenize_append body.whole

theorem Branch.begins (b : Branch) : Tokenizer.Begins b.text b.lines :=
  b.head.begins.append (begins_body b.body)

theorem Rest.begins (rest : Rest) : Tokenizer.Begins rest.text rest.lines := by
  induction rest with
  | ending head closes => exact head.begins
  | otherwise head isElse body closing closes =>
    exact (head.begins.append (begins_body body)).append closing.begins
  | branch b continues rest ih => exact b.begins.append ih

theorem begins (c : Conditional) : Tokenizer.Begins c.text c.lines :=
  c.first.begins.append c.rest.begins

end Conditional

namespace Preprocess

open Conditional Tokenizer

def inFile (fault : Option Fault) (w : Work) (global : String) (pending : List Line) :
    Preprocess :=
  ⟨w, [⟨"", pending, fault, .ofFile global, [], [], none⟩]⟩

def inBranch (fault : Option Fault) (w : Work) (isActive isSettled : Bool)
    (global outer : String) (pending : List Line) : Preprocess :=
  ⟨w, [⟨"", pending, fault, .ofIf isActive isSettled global, [.ofFile outer], [], none⟩]⟩

section

variable {o : Options} {w : Work} {fault : Option Fault} {global outer : String}
  {pending : List Line} {isActive isSettled : Bool}

theorem endsAlike_reader (o : Options) (w : Work) (r : Reader) :
    EndsAlike o ⟨w, [r]⟩ ⟨w, [{ r with file := "", last := none }]⟩ := by
  refine Alike.endsAlike ⟨.refl w, ?_⟩
  rfl

theorem canonical_of_flow (line : Line) {name : String}
    (named : Token.directive? line.first = some name)
    (flow : (BlockFlow.ofName? name).isSome = true) : canonical line = line := by
  change Token.directive? (line.tokens.headD "") = some name at named
  have other : Directive.isStatement name = false := by
    unfold BlockFlow.ofName? at flow
    split at flow
    iterate 10 rfl
    cases flow
  unfold canonical
  split
  · rename_i first rest shown
    rw [shown, List.headD_cons] at named
    rw [named]
    simp only [other, Bool.false_eq_true, if_false]
  · rfl

theorem endsAlike_directive (file stale : String) (r r' : Reader) (head : Head) {p : Preprocess}
    {w' : Work} {top : Frame} {below : List Frame}
    (reads : step o p = readLine o w r [] { lineOf file head.tokens with global := stale })
    (flow : (BlockFlow.ofName? head.name).isSome = true)
    (shown : Frame.captureAll ⟨head.tokens, r.top.global, [], file, 0⟩ r.frames = top :: below)
    (applied : ∀ last, Directive.apply o w { r with top, below, last }
      ⟨head.tokens, r.top.global, [], file, 0⟩ head.name = .ok (w', [{ r' with last }])) :
    EndsAlike o p ⟨w', [{ r' with file := "", last := none }]⟩ := by
  generalize written : Line.mk head.tokens r.top.global [] file 0 = line at shown applied
  have named : Token.directive? line.first = some head.name := by
    rw [← written]
    exact head.named
  have asWritten : used r { lineOf file head.tokens with global := stale } = line := by
    have same := canonical_of_flow line named flow
    rw [← written] at same ⊢
    simp only [used, lineOf, same, ite_self]
  have showing : showing r { lineOf file head.tokens with global := stale } =
      { r with top, below, last := some line } := by
    unfold Preprocess.showing
    rw [asWritten]
    rw [← written] at shown
    simp only [Reader.capture, lineOf, shown]
  have handled : Reader.handle o w { r with top, below, last := some line } line =
      .ok (w', [{ r' with last := some line }]) := by
    unfold Reader.handle
    rw [named]
    simp only [← BlockFlow.isFlow_of_ofName, flow, Bool.or_true, if_true]
    exact applied _
  refine (endsAlike_of_reaches (.single ?_)).trans
    (endsAlike_reader o w' { r' with last := some line })
  rw [reads, readLine_eq, showing, asWritten, handled]
  rfl

theorem endsAlike_head {file : String} (head : Head) {top top' : Frame} {below below' : List Frame}
    (flow : (BlockFlow.ofName? head.name).isSome = true)
    (quiet : Frame.captureAll ⟨head.tokens, top.global, [], file, 0⟩ (top :: below) = top :: below)
    (applied : ∀ last, Directive.apply o w ⟨"", pending, fault, top, below, [], last⟩
      ⟨head.tokens, top.global, [], file, 0⟩ head.name =
        .ok (w, [⟨"", pending, fault, top', below', [], last⟩])) :
    EndsAlike o ⟨w, [⟨"", lineOf file head.tokens :: pending, fault, top, below, [], none⟩]⟩
      ⟨w, [⟨"", pending, fault, top', below', [], none⟩]⟩ :=
  endsAlike_directive file "" ⟨"", pending, fault, top, below, [], none⟩
    ⟨"", pending, fault, top', below', [], none⟩ head rfl flow quiet applied

end

section

variable {o : Options} {w : Work} {fault : Option Fault} {file global outer : String}
  {later : List Line} {isActive isSettled : Bool}

theorem endsAlike_end (head : Head) (closes : head.name = "end") :
    EndsAlike o
      (inBranch fault w isActive isSettled global outer (lineOf file head.tokens :: later))
      (inFile fault w global later) := by
  refine endsAlike_head head (by rw [closes]; rfl) rfl fun last => ?_
  rw [closes]
  rfl

theorem endsAlike_settledHead (head : Head)
    (flow : BlockFlow.ofName? head.name = some .continuing) :
    EndsAlike o (inBranch fault w isActive true global outer (lineOf file head.tokens :: later))
      (inBranch fault w false true global outer later) :=
  endsAlike_head head (by rw [flow]; rfl) rfl fun last =>
    Directive.apply_continuing flow rfl rfl

theorem endsAlike_else (head : Head) (isElse : head.name = "else") :
    EndsAlike o (inBranch fault w false false global outer (lineOf file head.tokens :: later))
      (inBranch fault w true true global outer later) := by
  refine endsAlike_head head (by rw [isElse]; rfl) rfl fun last => ?_
  rw [isElse]
  rfl

theorem holds_of_value {b : Branch} {v : Int64} (value : b.value w global file = .ok v) :
    Directive.holds w ⟨b.head.tokens, global, [], file, 0⟩ b.head.name = .ok (v != 0) := by
  have operand : Line.operand ⟨b.head.tokens, global, [], file, 0⟩ = .ok b.operand := by
    rw [b.tokens]
    rfl
  unfold Branch.value at value
  simp only [Directive.holds, operand]
  change (w.symbols.literal _ _ >>= _) = _
  rw [value]
  rfl

theorem endsAlike_elif {b : Branch} (continues : b.head.name ∈ ["elif", "elsif", "elseif"])
    {v : Int64} (value : b.value w global file = .ok v) :
    EndsAlike o (inBranch fault w false false global outer (lineOf file b.head.tokens :: later))
      (inBranch fault w (v != 0) (v != 0) global outer later) := by
  have holds := holds_of_value value
  simp only [List.mem_cons, List.not_mem_nil, or_false] at continues
  rcases continues with same | same | same
  iterate 3
    · refine endsAlike_head b.head (by rw [same]; rfl) rfl fun last => ?_
      rw [same] at holds ⊢
      simp only [Directive.apply, Directive.onReader, Directive.elseIf, Frame.ofIf, holds]
      rfl

theorem endsAlike_if {b : Branch} (opens : BlockFlow.ofName? b.head.name = some (.opening true))
    {v : Int64} (value : b.value w global file = .ok v) :
    EndsAlike o (inFile fault w global (lineOf file b.head.tokens :: later))
      (inBranch fault w (v != 0) (v != 0) global global later) := by
  have holds := holds_of_value value
  have name : b.head.name ∈ ["if", "ifdef", "ifndef"] := by
    unfold BlockFlow.ofName? at opens
    split at opens
    iterate 3 rename_i same; rw [same]; decide
    iterate 8 cases opens
  simp only [List.mem_cons, List.not_mem_nil, or_false] at name
  rcases name with same | same | same
  iterate 3
    · refine endsAlike_head b.head (by rw [opens]; rfl) rfl fun last => ?_
      rw [same] at holds ⊢
      simp only [Directive.apply, Directive.onReader, Directive.openIf, Frame.ofFile, holds]
      rfl

theorem tokens_lineOf (file : String) (lines : List (List String)) :
    (lines.map (lineOf file)).map Line.tokens = lines := by
  rw [List.map_map]
  exact List.map_id _

theorem within_inFile (text : BalancedText) :
    (inFile fault w global (text.lines.map (lineOf file))).Within :=
  ⟨[], _, [], rfl, ⟨⟨global, rfl⟩, rfl, rfl⟩, by rw [tokens_lineOf]; exact text.balanced⟩

theorem endsAlike_text (s s' : Placement) (text : BalancedText)
    (after : ∀ w global, EndsAlike o
      ⟨w, [s.reader ⟨"", [], none, .ofFile global, [], [], none⟩]⟩
      ⟨w, [s'.reader ⟨"", [], none, .ofFile global, [], [], none⟩]⟩) :
    EndsAlike o (s.around (inFile none w global (text.lines.map (lineOf file))))
      (s'.around (inFile none w global (text.lines.map (lineOf file)))) := by
  refine endsAlike_placed s s' (within_inFile text) ?_
  intro q reaches ended within
  obtain ⟨w', _⟩ := q
  obtain ⟨⟨file', _, fault', _, _, _, last⟩, global', rfl, rfl, rfl, rfl, rfl⟩ :=
    frames_of_ended ended within
  have forgets (s : Placement) := endsAlike_reader o w'
    (s.reader ⟨file', [], fault', .ofFile global', [], [], last⟩)
  exact ((forgets s).trans (after w' global')).trans (forgets s').symm

theorem endsAlike_skip (body : BalancedText) :
    EndsAlike o (inBranch fault w false isSettled global outer
        (body.lines.map (lineOf file) ++ later))
      (inBranch fault w false isSettled global outer later) := by
  have skips : Reader.Skips isSettled global outer [] ⟨"", body.lines.map (lineOf file) ++ later,
      fault, .ofIf false isSettled global, [.ofFile outer], [], none⟩ :=
    ⟨rfl, [], rfl, by simp, rfl⟩
  obtain ⟨⟨file', _, _, _, _, _, last⟩, reaches, skips', rfl, rfl, -⟩ :=
    reaches_skips (o := o) (w := w) skips rfl
      (by rw [tokens_lineOf]; exact body.balanced)
  obtain ⟨opened, frames, -, closed⟩ := skips'.frames
  obtain rfl := List.map_eq_nil_iff.1 closed
  obtain rfl := skips'.replays
  cases frames
  exact (endsAlike_of_reaches reaches).trans (endsAlike_reader o w _)

theorem endsAlike_settled (rest : Rest) :
    EndsAlike o (inBranch fault w isActive true global outer
        (rest.lines.map (lineOf file) ++ later))
      (inFile fault w global later) := by
  induction rest generalizing isActive with
  | ending head closes => exact endsAlike_end head closes
  | otherwise head isElse body closing closes =>
    simp only [Rest.lines, List.map_cons, List.map_append, List.cons_append, List.append_assoc]
    refine (endsAlike_settledHead head (by rw [isElse]; rfl)).trans ?_
    exact (endsAlike_skip body).trans (endsAlike_end closing closes)
  | branch b continues rest ih =>
    have flow : BlockFlow.ofName? b.head.name = some .continuing := by
      simp only [List.mem_cons, List.not_mem_nil, or_false] at continues
      rcases continues with same | same | same <;> rw [same] <;> rfl
    simp only [Rest.lines, Branch.lines, List.map_cons, List.map_append, List.cons_append,
      List.append_assoc]
    exact ((endsAlike_settledHead b.head flow).trans (endsAlike_skip b.body)).trans ih

theorem endsAlike_taken (body : BalancedText) (rest : Rest) :
    EndsAlike o (inBranch fault w true true global outer
        (body.lines.map (lineOf file) ++ (rest.lines.map (lineOf file) ++ later)))
      (inFile fault w global (body.lines.map (lineOf file) ++ later)) := by
  refine endsAlike_text
    (Surroundings.placement ⟨some outer, rest.lines.map (lineOf file) ++ later, fault⟩)
    (Surroundings.placement ⟨none, later, fault⟩) body ?_
  intro w' global'
  -- In the block the rest of it is still to be skipped.
  exact endsAlike_settled rest

theorem endsAlike_body {b : Branch} {rest : Rest} {taken : BalancedText} {v : Int64}
    (value : b.value w global file = .ok v)
    (selected : b.choose (Branch.value w global file)
      (rest.taken? (Branch.value w global file)) = some taken)
    (other : rest.taken? (Branch.value w global file) = some taken →
      EndsAlike o (inBranch fault w false false global outer
          (rest.lines.map (lineOf file) ++ later))
        (inFile fault w global (taken.lines.map (lineOf file) ++ later))) :
    EndsAlike o (inBranch fault w (v != 0) (v != 0) global outer
        (b.body.lines.map (lineOf file) ++ (rest.lines.map (lineOf file) ++ later)))
      (inFile fault w global (taken.lines.map (lineOf file) ++ later)) := by
  simp only [Branch.choose, value] at selected
  by_cases zero : v = 0
  · rw [if_pos zero] at selected
    have skipped : (v != 0) = false := by
      rw [zero]
      rfl
    rw [skipped]
    exact (endsAlike_skip b.body).trans (other selected)
  · rw [if_neg zero] at selected
    cases selected
    have active : (v != 0) = true := bne_iff_ne.2 zero
    rw [active]
    exact endsAlike_taken b.body rest

theorem exists_value {b : Branch} {value : Branch → Except Fault Int64}
    {other : Option BalancedText} {taken : BalancedText}
    (selected : b.choose value other = some taken) : ∃ v, value b = .ok v := by
  unfold Branch.choose at selected
  split at selected
  · rename_i v given
    exact ⟨v, given⟩
  · cases selected

theorem endsAlike_unsettled {rest : Rest} {taken : BalancedText}
    (selected : rest.taken? (Branch.value w global file) = some taken) :
    EndsAlike o (inBranch fault w false false global outer
        (rest.lines.map (lineOf file) ++ later))
      (inFile fault w global (taken.lines.map (lineOf file) ++ later)) := by
  induction rest with
  | ending head closes =>
    cases selected
    exact endsAlike_end head closes
  | otherwise head isElse body closing closes =>
    obtain rfl := Option.some.inj selected
    simp only [Rest.lines, List.map_cons, List.map_append, List.cons_append, List.append_assoc]
    exact (endsAlike_else head isElse).trans (endsAlike_taken body (.ending closing closes))
  | branch b continues rest ih =>
    obtain ⟨v, value⟩ := exists_value selected
    simp only [Rest.lines, Branch.lines, List.map_cons, List.map_append, List.cons_append,
      List.append_assoc]
    exact (endsAlike_elif continues value).trans (endsAlike_body value selected ih)

theorem endsAlike_conditional {c : Conditional} {taken : BalancedText}
    (selected : c.taken? (Branch.value w global file) = some taken) :
    EndsAlike o (inFile fault w global (c.lines.map (lineOf file) ++ later))
      (inFile fault w global (taken.lines.map (lineOf file) ++ later)) := by
  obtain ⟨v, value⟩ := exists_value selected
  simp only [Conditional.lines, Branch.lines, List.map_cons, List.map_append, List.cons_append,
    List.append_assoc]
  exact (endsAlike_if c.opens value).trans (endsAlike_body value selected endsAlike_unsettled)

def After (o : Options) (file source : String) (w : Work) (global : String) : Prop :=
  ∃ r, Reaches o (start file source) ⟨w, [r]⟩ ∧ r.replays = [] ∧ r.pending = [] ∧
    r.top.global = global

theorem alike_start {text : String} {lines : List (List String)} (begins : Begins text lines)
    (file rest : String) :
    (start file (text ++ rest)).Alike
      (inFile ((tokenize file rest).fault.map fun _ => .tooManyEnds) {} ""
        (lines.map (lineOf file) ++ (tokenize file rest).lines.map Line.bare)) := by
  obtain ⟨sameLines, sameFault⟩ := begins file rest
  refine ⟨.refl _, ?_⟩
  have again (l : List Line) : (l.map Line.bare).map Line.bare = l.map Line.bare := by
    rw [List.map_map]
    rfl
  have written : (lines.map (lineOf file)).map Line.bare = lines.map (lineOf file) := by
    rw [List.map_map]
    rfl
  simp only [start, inFile, Reader.ofSource, List.map_cons, List.map_nil, Reader.bare,
    List.map_append, again, written, sameLines, sameFault, Option.map_map]
  rfl

theorem after_of_ended {text : BalancedText} {q : Preprocess}
    (reaches : Reaches o (inFile none {} "" (text.lines.map (lineOf file))) q)
    (ended : q.Ended) (within : q.Within) :
    ∃ r global w', q.readers = [r] ∧ r.replays = [] ∧ r.pending = [] ∧ r.top = .ofFile global ∧
      r.below = [] ∧ After o file text.text w' global ∧ q.work.Alike w' := by
  obtain ⟨r, global, readers, replays, pending, top, below⟩ := frames_of_ended ended within
  have alone := alike_start (begins_body text) file ""
  have empty : (tokenize file "").lines = [] ∧ (tokenize file "").fault = none := ⟨rfl, rfl⟩
  rw [String.append_empty, empty.1, empty.2, List.map_nil, List.append_nil] at alone
  obtain ⟨⟨w', readers'⟩, reaches', same⟩ := alone.symm.reaches reaches
  have sameReaders := same.readers
  rw [readers] at sameReaders
  cases readers' with
  | nil => cases sameReaders
  | cons r' others =>
    obtain ⟨sameReader, none⟩ := List.cons.inj sameReaders
    obtain rfl := List.map_eq_nil_iff.1 none
    refine ⟨r, global, w', readers, replays, pending, top, below, ⟨r', reaches', ?_, ?_, ?_⟩,
      same.work⟩
    · have sameReplays : r'.replays.map Replay.bare = r.replays.map Replay.bare :=
        congrArg Reader.replays sameReader
      rw [replays] at sameReplays
      exact List.map_eq_nil_iff.1 sameReplays
    · have samePending : r'.pending.map Line.bare = r.pending.map Line.bare :=
        congrArg Reader.pending sameReader
      rw [pending] at samePending
      exact List.map_eq_nil_iff.1 samePending
    · have sameTop := congrArg Frame.global (Reader.top_of_bare sameReader)
      rw [top] at sameTop
      exact sameTop

theorem forall_after (n : Nat) (holds : Work → String → Bool) {source : String}
    (computed : (advance o n (start file source)).any (fun q =>
      match q.readers with
      | [r] => r.replays.isEmpty && r.pending.isEmpty && holds q.work r.top.global
      | _ => false) = true) :
    ∀ w global, After o file source w global → holds w global = true := by
  rintro w global ⟨r, reaches, replays, pending, rfl⟩
  rw [Option.any_eq_true] at computed
  obtain ⟨⟨w', readers⟩, advanced, computed⟩ := computed
  split at computed
  · rename_i r' shown
    simp only [Bool.and_eq_true, List.isEmpty_iff] at computed
    obtain ⟨⟨replays', pending'⟩, computed⟩ := computed
    have same := ended_unique reaches (reaches_of_advance advanced) ⟨r, rfl, replays, pending⟩
      ⟨r', shown, replays', pending'⟩
    dsimp only at shown
    subst shown
    cases same
    exact computed
  · cases computed

end

end Preprocess

section

open Preprocess Conditional Tokenizer

theorem endsAlike_source {o : Options} {file : String} {before taken : BalancedText}
    {c : Conditional} (after : String)
    (selected : ∀ w global, After o file before.text w global →
      c.taken? (Branch.value w global file) = some taken) :
    EndsAlike o (start file (before.text ++ c.text ++ after))
      (start file (before.text ++ taken.text ++ after)) := by
  have whole := alike_start ((begins_body before).append c.begins) file after
  have chosen := alike_start ((begins_body before).append (begins_body taken)) file after
  refine (whole.endsAlike.trans ?_).trans chosen.endsAlike.symm
  rw [List.map_append, List.append_assoc, List.map_append, List.append_assoc]
  generalize (tokenize file after).fault.map (fun _ => Fault.tooManyEnds) = fault
  generalize (tokenize file after).lines.map Line.bare = later
  have within : (inFile none {} "" (before.lines.map (lineOf file))).Within := within_inFile before
  refine endsAlike_around ⟨none, c.lines.map (lineOf file) ++ later, fault⟩
    ⟨none, taken.lines.map (lineOf file) ++ later, fault⟩ within ?_
  intro q reaches ended within'
  obtain ⟨r, global, w', readers, replays, pending, top, below, reached, same⟩ :=
    after_of_ended reaches ended within'
  have value : Branch.value w' global file = Branch.value q.work global file := by
    funext b
    simp only [Branch.value, same.symbols]
  have chain := selected w' global reached
  rw [value] at chain
  obtain ⟨w, _⟩ := q
  obtain ⟨file', _, fault', _, _, _, last⟩ := r
  cases readers
  cases replays
  cases pending
  cases top
  cases below
  have forgets (pending : List Line) := endsAlike_reader o w
    ⟨file', pending, fault, .ofFile global, [], [], last⟩
  exact ((forgets _).trans (endsAlike_conditional chain)).trans (forgets _).symm

/-- A conditional block means the text of its first true branch. -/
theorem conditional_means_taken (o : Options) (file : String) (before : BalancedText)
    (c : Conditional) (after : String) (taken : BalancedText)
    (selected : ∀ w global, After o file before.text w global →
      c.taken? (Branch.value w global file) = some taken) :
    let source := before.text ++ c.text ++ after
    let chosen := before.text ++ taken.text ++ after
    ((∃ limit, (preprocess { o with lineLimit := limit } file source).2 = none) ↔
      ∃ limit, (preprocess { o with lineLimit := limit } file chosen).2 = none) ∧
    ∀ limit limit' w w', preprocess { o with lineLimit := limit } file source = (w, none) →
      preprocess { o with lineLimit := limit' } file chosen = (w', none) →
      let report := assemble { o with lineLimit := limit } file source
      let report' := assemble { o with lineLimit := limit' } file chosen
      w.Alike w' ∧ report.echo = report'.echo ∧
        report.outcome.toOption.map (fun p => (p.words, p.labels)) =
          report'.outcome.toOption.map fun p => (p.words, p.labels) := by
  intro source chosen
  have both : EndsAlike o (start file source) (start file chosen) := endsAlike_source after selected
  have finishes (text : String) : (∃ limit,
      (preprocess { o with lineLimit := limit } file text).2 = none) ↔
      ∃ w, Finishes o (start file text) w := by
    constructor
    · rintro ⟨limit, ended⟩
      rw [preprocess_limit] at ended
      exact ⟨_, finishes_iff.2 ⟨limit, Prod.ext rfl ended⟩⟩
    · rintro ⟨w, ended⟩
      obtain ⟨limit, ran⟩ := finishes_iff.1 ended
      exact ⟨limit, by rw [preprocess_limit, ran]⟩
  constructor
  · rw [finishes, finishes]
    constructor
    · rintro ⟨w, ended⟩
      obtain ⟨w', ended', -⟩ := both.left w ended
      exact ⟨w', ended'⟩
    · rintro ⟨w, ended⟩
      obtain ⟨w', ended', -⟩ := both.right w ended
      exact ⟨w', ended'⟩
  · intro limit limit' w w' read read' report report'
    have ended : Finishes o (start file source) w :=
      finishes_iff.2 ⟨limit, by rw [← preprocess_limit, read]⟩
    have ended' : Finishes o (start file chosen) w' :=
      finishes_iff.2 ⟨limit', by rw [← preprocess_limit, read']⟩
    obtain ⟨w'', ended'', alike⟩ := both.left w ended
    obtain rfl := ended'.unique ended''
    refine ⟨alike, ?_, ?_⟩
    · simp only [report, report', assemble, read, read', alike.echo]
    · simp only [report, report', Program.image_of_assemble read, Program.image_of_assemble read']
      exact (Program.image_alike alike).symm

def secondLevel : BalancedText where
  text := "SET B, start\n.def level 2\n.echo taken\n"
  lines := [["SET", "B", "start"], [".def", "level 2"], [".echo", "taken"]]
  whole := by decide +kernel
  balanced := by decide +kernel

def levels : Conditional where
  first :=
    { head := ⟨".if debug\n", [".if", "debug"], "if", by decide +kernel, by decide +kernel⟩
      directive := ".if"
      operand := "debug"
      tokens := rfl
      body :=
        { text := "BOGUS 1, 2, 3, 4\nnowhere(1)\n:start .def debug 5\n.error stop\n" ++
            ".if 1\n.elif\n.else\n.end\n.rep many\n.macro m(x)\n.end\n.end\n"
          lines := [["BOGUS", "1", "2", "3", "4"], ["nowhere(1)"], [":start"], [".def", "debug 5"],
            [".error", "stop"], [".if", "1"], [".elif"], [".else"], [".end"], [".rep", "many"],
            [".macro", "m(x)"], [".end"], [".end"]]
          whole := by decide +kernel
          balanced := by decide +kernel } }
  opens := by decide +kernel
  rest := .branch
    { head := ⟨".elif !debug\n", [".elif", "!debug"], "elif", by decide +kernel, by decide +kernel⟩
      directive := ".elif"
      operand := "!debug"
      tokens := rfl
      body := secondLevel }
    (by decide +kernel)
    (.otherwise ⟨".else\n", [".else"], "else", by decide +kernel, by decide +kernel⟩ rfl
      ⟨"DAT 1\n", [["DAT", "1"]], by decide +kernel, by decide +kernel⟩
      ⟨".end\n", [".end"], "end", by decide +kernel, by decide +kernel⟩ rfl)

def beforeLevels : BalancedText where
  text := ".def debug 0\n:start SET A, 1\n"
  lines := [[".def", "debug 0"], [":start"], ["SET", "A", "1"]]
  whole := by decide +kernel
  balanced := by decide +kernel

theorem conditional_means_taken_levels :
    (∀ w global, After {} "main" beforeLevels.text w global →
      levels.taken? (Branch.value w global "main") = some secondLevel) ∧
    ∃ limit, (preprocess { lineLimit := limit } "main"
      (beforeLevels.text ++ levels.text ++ "SET X, level\n")).2 = none := by
  have selected : ∀ w global, After {} "main" beforeLevels.text w global →
      levels.taken? (Branch.value w global "main") = some secondLevel := by
    intro w global reached
    have computed := forall_after 3
      (fun w global => levels.taken? (Branch.value w global "main") = some secondLevel)
      (by decide +kernel) w global reached
    exact of_decide_eq_true computed
  have means := conditional_means_taken {} "main" beforeLevels levels "SET X, level\n" secondLevel
    selected
  exact ⟨selected, means.1.2 ⟨10, by decide +kernel⟩⟩

end

end WordAsm
