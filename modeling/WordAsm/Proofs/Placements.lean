import Mathlib.Data.List.ModifyLast
import WordAsm.Proofs.Blocks
import WordAsm.Proofs.LineNumbers

/-!
Places of a text. A text whose blocks match may stand in a file, in a branch that is taken, or
among lines that are read again. While it is read, its place makes no difference: the readers go
through the same states as if it were the whole source, until all of it has been used.
-/
namespace WordAsm

/-- The replay with more blocks around the one that it is read for. -/
def Replay.within (count : Nat) (replay : Replay) : Replay :=
  { replay with level := replay.level + count }

/-- A place of a text: a frame stands for that of the file, others are below it, and the lines are
taken from the file or from a replay. What a line says of its namespace does not matter, for it is
set when the line is read. -/
structure Placement where
  base : Frame → Frame
  below : List Frame
  pending : List Line → List Line
  replays : List Line → List Replay
  fault : Option Fault
  active : ∀ f, (base f).isActive = f.isActive
  namespaced : ∀ f global, base { f with global } = { base f with global }
  quiet : ∀ line global,
    Frame.captureAll line (base (.ofFile global) :: below) = base (.ofFile global) :: below
  outside : ∀ lines, ∀ replay ∈ replays lines, replay.level ≤ below.length
  reads : ∀ line rest, ∃ global : String,
    (pending (line :: rest) = { line with global } :: pending rest ∧
      replays (line :: rest) = [] ∧ replays rest = []) ∨
    (pending (line :: rest) = pending rest ∧ ∃ level body lines outer,
      replays (line :: rest) = ⟨level, body, { line with global } :: lines⟩ :: outer ∧
      replays rest = ⟨level, body, lines⟩ :: outer)

namespace Placement

/-- The frames of the text, with those around it. -/
def frames (s : Placement) : List Frame → List Frame
  | [] => []
  | [f] => s.base f :: s.below
  | f :: g :: rest => f :: s.frames (g :: rest)

def reader (s : Placement) (r : Reader) : Reader :=
  { r with
    pending := s.pending r.pending
    fault := s.fault
    top := (s.frames r.frames).headD r.top
    below := (s.frames r.frames).tail
    replays := r.replays.map (·.within s.below.length) ++ s.replays r.pending }

/-- The outermost reader is the one of the text. -/
def around (s : Placement) (p : Preprocess) : Preprocess :=
  { p with readers := p.readers.modifyLast s.reader }

variable (s : Placement) {r : Reader}

theorem global_base (f : Frame) : (s.base f).global = f.global := by
  have same := congrArg Frame.global (s.namespaced f f.global)
  exact same

theorem frames_cons (f : Frame) {rest : List Frame} (some : rest ≠ []) :
    s.frames (f :: rest) = f :: s.frames rest := by
  cases rest with
  | nil => exact absurd rfl some
  | cons g rest => rfl

theorem frames_head (f : Frame) (rest : List Frame) :
    ∃ f' rest', s.frames (f :: rest) = f' :: rest' ∧ f'.isActive = f.isActive ∧
      f'.global = f.global := by
  cases rest with
  | nil => exact ⟨s.base f, s.below, rfl, s.active f, s.global_base f⟩
  | cons g rest => exact ⟨f, _, rfl, rfl, rfl⟩

theorem reader_frames (r : Reader) : (s.reader r).frames = s.frames r.frames := by
  obtain ⟨f, rest, shown, -⟩ := s.frames_head r.top r.below
  change s.frames r.frames = f :: rest at shown
  simp only [Reader.frames, reader] at shown ⊢
  rw [shown]
  rfl

theorem reader_isActive (r : Reader) : (s.reader r).top.isActive = r.top.isActive := by
  obtain ⟨f, rest, shown, active, -⟩ := s.frames_head r.top r.below
  simp only [reader, Reader.frames, shown, List.headD_cons, active]

theorem reader_global (r : Reader) : (s.reader r).top.global = r.top.global := by
  obtain ⟨f, rest, shown, -, global⟩ := s.frames_head r.top r.below
  simp only [reader, Reader.frames, shown, List.headD_cons, global]

theorem reader_of_below (some : r.below ≠ []) :
    s.reader r =
      { r with
        pending := s.pending r.pending
        fault := s.fault
        below := s.frames r.below
        replays := r.replays.map (·.within s.below.length) ++ s.replays r.pending } := by
  simp only [reader, Reader.frames, s.frames_cons r.top some, List.headD_cons, List.tail_cons]

theorem reader_setTop (some : r.below ≠ []) (f : Frame) :
    { s.reader r with top := f } = s.reader { r with top := f } := by
  rw [s.reader_of_below some, s.reader_of_below (r := { r with top := f }) some]

theorem reader_top (some : r.below ≠ []) : (s.reader r).top = r.top := by
  rw [s.reader_of_below some]

theorem reader_push (f : Frame) : s.reader (r.push f) = (s.reader r).push f := by
  have below := s.reader_frames r
  rw [s.reader_of_below (by simp [Reader.push])]
  simp only [Reader.push, s.reader_global]
  simp only [Reader.frames] at below
  rw [below]
  rfl

theorem length_frames (f : Frame) (rest : List Frame) :
    (s.frames (f :: rest)).length = rest.length + s.below.length + 1 := by
  induction rest generalizing f with
  | nil => simp [frames]
  | cons g rest ih =>
    rw [s.frames_cons f (by simp), List.length_cons, ih, List.length_cons]
    omega

theorem length_below (r : Reader) :
    (s.reader r).below.length = r.below.length + s.below.length := by
  have all := congrArg List.length (s.reader_frames r)
  simp only [Reader.frames, s.length_frames, List.length_cons] at all
  omega

theorem reader_pushReplay (f : Frame) (body : List Line) :
    s.reader (r.pushReplay f body) = (s.reader r).pushReplay f body := by
  have pushed := s.reader_push (r := r) f
  have level := s.length_below r
  simp only [Reader.pushReplay]
  rw [← pushed, level, Nat.add_right_comm]
  rfl

theorem reader_setGlobal (global : String) :
    s.reader { r with top := { r.top with global } } =
      { s.reader r with top := { (s.reader r).top with global } } := by
  cases stack : r.below with
  | nil =>
    have renamed := s.namespaced r.top global
    simp only [reader, Reader.frames, stack, frames, List.headD_cons, renamed]
    rfl
  | cons g below => simp only [reader, Reader.frames, stack, frames, List.headD_cons]; rfl

theorem replays_ne_nil {blocks : List Bool} (opens : r.Opens blocks)
    (again : r.top.isReplaying = true) : r.replays ≠ [] := by
  intro none
  have any := opens.any
  simp only [Reader.frames, List.any_cons, again, none] at any
  cases any

theorem reader_isSource (some : r.below ≠ []) : (s.reader r).isSource = r.isSource := by
  unfold Reader.isSource
  rw [s.length_below]
  simp only [reader]
  cases r.replays with
  | cons replay rest =>
    simp only [List.map_cons, List.cons_append, List.head?_cons, Option.any_some, Replay.within]
    rw [Bool.eq_iff_iff, beq_iff_eq, beq_iff_eq, Nat.add_right_cancel_iff]
  | nil =>
    cases outside : s.replays r.pending with
    | nil => rfl
    | cons replay rest =>
      have deep := s.outside r.pending replay (by simp [outside])
      have inside := List.length_pos_iff.2 some
      have other : replay.level ≠ r.below.length + s.below.length := by omega
      simp [other]

theorem replays_of_isSource (source : r.isSource = true) : r.replays ≠ [] := by
  intro none
  simp [Reader.isSource, none] at source

theorem reader_pop {outer : Frame} {below : List Frame} (stack : r.below = outer :: below) :
    ∃ outer' below', (s.reader r).below = outer' :: below' ∧
      (s.reader r).pop outer' below' = s.reader (r.pop outer below) := by
  have source := s.reader_isSource (r := r) (by simp [stack])
  have replays : (if r.isSource then
        (r.replays.map (·.within s.below.length) ++ s.replays r.pending).drop 1
      else r.replays.map (·.within s.below.length) ++ s.replays r.pending) =
      (if r.isSource then r.replays.drop 1 else r.replays).map (·.within s.below.length) ++
        s.replays r.pending := by
    split
    · rename_i source
      obtain ⟨replay, rest, stack⟩ := List.exists_cons_of_ne_nil (replays_of_isSource source)
      rw [stack]
      rfl
    · rfl
  unfold Reader.pop
  rw [source, s.reader_of_below (by simp [stack]), stack]
  cases below with
  | nil =>
    refine ⟨_, _, rfl, ?_⟩
    have kept := s.global_base outer
    simp only [reader, Reader.frames, frames, List.headD_cons, List.tail_cons, replays, kept]
    exact congrArg (Reader.mk _ _ _ · _ _ _) (s.namespaced outer _).symm
  | cons g below =>
    refine ⟨_, _, rfl, ?_⟩
    simp only [reader, Reader.frames, frames, List.headD_cons, List.tail_cons, replays]

theorem reader_replayTop {blocks : List Bool} (opens : r.Opens blocks) (some : r.below ≠ []) :
    (s.reader r).replayTop = s.reader r.replayTop := by
  have kept : r.replayTop.below = r.below := by
    unfold Reader.replayTop
    dsimp only
    split <;> rfl
  have level : (s.frames r.below).length = r.below.length + s.below.length := by
    obtain ⟨g, below, stack⟩ := List.exists_cons_of_ne_nil some
    rw [stack, s.length_frames, List.length_cons, Nat.add_right_comm]
  rw [s.reader_of_below some, s.reader_of_below (by rw [kept]; exact some), kept]
  unfold Reader.replayTop
  dsimp only
  split
  · rename_i again
    obtain ⟨replay, rest, stack⟩ := List.exists_cons_of_ne_nil (replays_ne_nil opens again)
    rw [stack]
    rfl
  · rw [level]
    rfl

theorem captureAll_frames (line : Line) {frames : List Frame} {global : String}
    (last : frames.getLast? = some (.ofFile global)) :
    Frame.captureAll line (s.frames frames) = s.frames (Frame.captureAll line frames) := by
  induction frames with
  | nil => rfl
  | cons f rest ih =>
    cases rest with
    | nil =>
      rw [List.getLast?_singleton, Option.some.injEq] at last
      subst last
      exact s.quiet line global
    | cons g rest =>
      rw [List.getLast?_cons_cons] at last
      rw [s.frames_cons f (by simp), Frame.captureAll, Frame.captureAll]
      split
      · rw [s.frames_cons f (by simp)]
      · have some : Frame.captureAll line (g :: rest) ≠ [] := by
          rw [Frame.captureAll]
          split <;> simp
        rw [ih last, s.frames_cons _ some]

theorem reader_capture (line : Line) {blocks : List Bool} (opens : r.Opens blocks) :
    (s.reader r).capture line = s.reader (r.capture line) := by
  obtain ⟨global, last⟩ := opens.base
  have shown := s.captureAll_frames line last
  unfold Reader.capture
  rw [s.reader_frames, shown]
  cases captured : Frame.captureAll line r.frames with
  | nil =>
    simp only [Reader.frames, Frame.captureAll] at captured
    split at captured <;> cases captured
  | cons top below =>
    obtain ⟨top', below', framed, -⟩ := s.frames_head top below
    rw [framed]
    simp only [reader, Reader.frames, framed]
    rfl

/-- What a line leaves, with what is around the text. -/
def result (s : Placement) : Directive.Result → Directive.Result :=
  Except.map fun (w, readers) => (w, readers.modifyLast s.reader)

theorem modifyLast_append (inner : List Reader) (r : Reader) :
    (inner ++ [r]).modifyLast s.reader = inner ++ [s.reader r] :=
  List.modifyLast_concat s.reader r inner

section

variable {o : Options} {w : Work} {line : Line} {name : String} {blocks blocks' : List Bool}

theorem result_onWork (made : Except Fault Work) :
    Directive.onWork (s.reader r) made = s.result (Directive.onWork r made) := by
  cases made <;> rfl

theorem result_onReader {made made' : Except Fault Reader} (same : made' = made.map s.reader) :
    Directive.onReader w made' = s.result (Directive.onReader w made) := by
  rw [same]
  cases made <;> rfl

theorem openIf_reader : Directive.openIf w (s.reader r) line name =
    (Directive.openIf w r line name).map s.reader := by
  unfold Directive.openIf
  rw [s.reader_isActive]
  split
  · cases Directive.holds w line name with
    | error fault => rfl
    | ok taken => exact congrArg Except.ok (s.reader_push _).symm
  · exact congrArg Except.ok (s.reader_push _).symm

theorem openRep_reader : Directive.openRep w (s.reader r) line =
    (Directive.openRep w r line).map s.reader := by
  unfold Directive.openRep
  rw [s.reader_isActive]
  split
  · cases line.operand with
    | error fault => rfl
    | ok operand =>
      change (w.symbols.literal line operand >>= _) = (w.symbols.literal line operand >>= _).map _
      cases w.symbols.literal line operand with
      | error fault => rfl
      | ok n => exact congrArg Except.ok (s.reader_push _).symm
  · exact congrArg Except.ok (s.reader_push _).symm

theorem openMacro_reader : Directive.openMacro (s.reader r) line =
    (Directive.openMacro r line).map s.reader := by
  unfold Directive.openMacro
  rw [s.reader_isActive]
  split
  · cases Signature.read line.operands with
    | error fault => rfl
    | ok signature => exact congrArg Except.ok (s.reader_push _).symm
  · exact congrArg Except.ok (s.reader_push _).symm

theorem below_of_moves (opens : r.Opens blocks)
    (flow : BlockFlow.ofTokens? line.tokens = some .continuing ∨
      BlockFlow.ofTokens? line.tokens = some .closing)
    (moves : r.moves blocks line.tokens = some blocks') : r.below ≠ [] := by
  intro alone
  obtain ⟨-, replays, none⟩ := opens.bottom alone
  subst none
  simp only [Reader.moves, replays, List.isEmpty_nil, if_true, BlockFlow.after] at moves
  rcases flow with flow | flow
  · rw [flow] at moves
    cases moves
  · rw [flow] at moves
    cases moves

theorem elseIf_reader (some : r.below ≠ []) : Directive.elseIf w (s.reader r) line name =
    (Directive.elseIf w r line name).map s.reader := by
  unfold Directive.elseIf
  rw [s.reader_top some]
  split
  · rfl
  · split
    · exact congrArg Except.ok (s.reader_setTop some _)
    · cases Directive.holds w line name with
      | error fault => rfl
      | ok taken => exact congrArg Except.ok (s.reader_setTop some _)

theorem otherwise_reader (some : r.below ≠ []) : Directive.otherwise (s.reader r) =
    (Directive.otherwise r).map s.reader := by
  unfold Directive.otherwise
  rw [s.reader_top some]
  split
  · rfl
  · exact congrArg Except.ok (s.reader_setTop some _)

theorem close_reader (opens : r.Opens blocks) (some : r.below ≠ []) :
    Directive.close w (s.reader r) =
      (Directive.close w r).map (Prod.map id s.reader) := by
  obtain ⟨outer, below, stack⟩ := List.exists_cons_of_ne_nil some
  obtain ⟨outer', below', stack', popped⟩ := s.reader_pop stack
  unfold Directive.close
  rw [stack, stack', s.reader_top some]
  dsimp only
  rw [popped, s.reader_replayTop opens some]
  split <;> rfl

theorem apply_reader (opens : r.Opens blocks) (named : Token.directive? line.first = some name)
    (moves : r.moves blocks line.tokens = some blocks') :
    Directive.apply o w (s.reader r) line name = s.result (Directive.apply o w r line name) := by
  have flow : BlockFlow.ofTokens? line.tokens = BlockFlow.ofName? name := by
    change Token.directive? (line.tokens.headD "") = some name at named
    rw [BlockFlow.ofTokens?, named, Option.bind_some]
  unfold Directive.apply
  split
  · unfold Directive.includeFile
    rw [s.reader_global]
    cases Include.find o w line with
    | error fault => rfl
    | ok found =>
      obtain ⟨w, hit⟩ := found
      cases hit <;> rfl
  iterate 5 exact s.result_onWork _
  · rfl
  · rfl
  iterate 3 exact s.result_onReader s.openIf_reader
  iterate 3
    · exact s.result_onReader (s.elseIf_reader (below_of_moves opens (.inl flow) moves))
  · exact s.result_onReader (s.otherwise_reader (below_of_moves opens (.inl flow) moves))
  · exact s.result_onReader s.openRep_reader
  · exact s.result_onReader s.openMacro_reader
  · rw [s.close_reader opens (below_of_moves opens (.inr flow) moves)]
    cases Directive.close w r <;> rfl
  · exact s.result_onWork _
  · split
    · exact s.result_onWork _
    · rfl

theorem invoke_reader : Reader.invoke w (s.reader r) line =
    (Reader.invoke w r line).map (Prod.map id s.reader) := by
  unfold Reader.invoke
  cases Signature.read line.tokens with
  | error fault => rfl
  | ok call =>
    dsimp only [bind, Except.bind]
    cases w.macros[Text.upper call.name]? with
    | none => rfl
    | some m =>
      dsimp only
      cases m.expand call.arguments line.scope with
      | error fault => rfl
      | ok expanded =>
        refine congrArg Except.ok ?_
        rw [← s.reader_pushReplay]
        rfl

theorem useLine_reader : Reader.useLine w (s.reader r) line =
    (Reader.useLine w r line).map (Prod.map id s.reader) := by
  unfold Reader.useLine
  rw [s.reader_global]
  split
  · exact s.invoke_reader
  · split
    · cases w.addLabel line r.top.global with
      | error fault => rfl
      | ok added =>
        have labelled := s.reader_setGlobal (r := r) added.2
        exact congrArg (fun r => Except.ok (added.1, r)) labelled.symm
    · split
      · rfl
      · cases w.add line <;> rfl

theorem handle_reader (opens : r.Opens blocks)
    (moves : r.moves blocks line.tokens = some blocks') :
    (s.reader r).handle o w line = s.result (r.handle o w line) := by
  unfold Reader.handle
  rw [s.reader_isActive]
  split
  · rename_i name named
    split
    · exact s.apply_reader opens named moves
    · rfl
  · split
    · rw [s.useLine_reader]
      cases Reader.useLine w r line <;> rfl
    · rfl

end

end Placement

namespace Preprocess

section

variable {o : Options} {w : Work} {r : Reader} {line : Line} {blocks blocks' : List Bool}
  {p q next : Preprocess} (s : Placement)

theorem showing_reader (opens : r.Opens blocks) (line : Line) :
    showing (s.reader r) line = s.reader (showing r line) ∧
      used (s.reader r) line = used r line := by
  have same : used (s.reader r) line = used r line := by
    unfold used
    rw [s.reader_isActive, s.reader_global]
  refine ⟨?_, same⟩
  unfold showing
  rw [same, s.reader_global, s.reader_capture _ opens]
  rfl

theorem readLine_reader (opens : r.Opens blocks)
    (moves : r.moves blocks line.tokens = some blocks') :
    readLine o w (s.reader r) [] line = .more next ↔
      ∃ inner, readLine o w r [] line = .more inner ∧ next = s.around inner := by
  have shown := opens.capture { line with global := r.top.global }
  obtain ⟨replays, -⟩ := Reader.replays_capture { line with global := r.top.global } r
  have moves' : (showing r line).moves blocks (used r line).tokens = some blocks' := by
    rw [← moves]
    simp only [Reader.moves, BlockFlow.after, flow_used, showing, replays]
  obtain ⟨same, same'⟩ := showing_reader s opens line
  have handled := s.handle_reader (o := o) (w := w) (r := showing r line)
    ⟨shown.base, shown.sourced, shown.blocks⟩ moves'
  rw [readLine_eq, readLine_eq, same, same', handled]
  cases (showing r line).handle o w (used r line) with
  | error fault => simp [Placement.result, Except.map]
  | ok left =>
    simp only [Placement.result, Except.map, List.append_nil]
    constructor
    · intro given
      cases given
      exact ⟨_, rfl, rfl⟩
    · rintro ⟨inner, given, rfl⟩
      cases given
      rfl

theorem step_reader (w : Work) {pending : List Line} (file : r.replays = [])
    (lines : r.pending = line :: pending) :
    step o ⟨w, [s.reader r]⟩ = readLine o w (s.reader { r with pending }) [] line := by
  obtain ⟨name, _, fault, top, below, _, last⟩ := r
  cases file
  cases lines
  obtain ⟨global, ⟨taken, none, none'⟩ | ⟨left, level, body, lines, outer, here, rest⟩⟩ :=
    s.reads line pending
  · simp only [step, Placement.reader, none, none', taken]
    rfl
  · simp only [step, Placement.reader, here, rest, left]
    rfl

theorem more_around (within : p.Within) (unended : ¬ p.Ended) :
    step o (s.around p) = .more next ↔ ∃ inner, step o p = .more inner ∧ next = s.around inner := by
  obtain ⟨work, _⟩ := p
  obtain ⟨inner, r, blocks, rfl, opens, balanced⟩ := within
  simp only [Placement.around, s.modifyLast_append]
  cases inner with
  | nil =>
    obtain ⟨file, pending, fault, top, below, replays, last⟩ := r
    cases replays with
    | cons replay replays =>
      obtain ⟨level, body, rest⟩ := replay
      simp only [List.nil_append, step]
      cases rest with
      | nil => simp [Placement.reader, Replay.within]
      | cons line rest =>
        have opens' : Reader.Opens
            ⟨file, pending, fault, top, below, ⟨level, body, rest⟩ :: replays, last⟩ blocks :=
          ⟨opens.base, opens.sourced, opens.blocks⟩
        exact readLine_reader s opens' rfl
    | nil =>
      cases pending with
      | nil => exact absurd ⟨_, rfl, rfl, rfl⟩ unended
      | cons line pending =>
        rw [List.map_cons, BlockFlow.isBalanced, Option.any_eq_true] at balanced
        obtain ⟨blocks', after, -⟩ := balanced
        have opens' : Reader.Opens ⟨file, pending, fault, top, below, [], last⟩ blocks :=
          ⟨opens.base, opens.sourced, opens.blocks⟩
        rw [List.nil_append, step_reader s work rfl rfl]
        exact readLine_reader s opens' after
  | cons i inner =>
    simp only [List.cons_append]
    rw [more_cons]
    constructor
    · rintro ⟨readers, first, shown⟩
      refine ⟨⟨next.work, readers ++ (inner ++ [r])⟩, ?_, ?_⟩
      · rw [more_cons]
        exact ⟨readers, first, rfl⟩
      · rw [← List.append_assoc] at shown
        simp only [← List.append_assoc, s.modifyLast_append, ← shown]
    · rintro ⟨middle, first, rfl⟩
      rw [more_cons] at first
      obtain ⟨readers, first, shown⟩ := first
      refine ⟨readers, first, ?_⟩
      rw [shown]
      simp only [← List.append_assoc, s.modifyLast_append]

theorem done_iff : step o p = .done w ↔ p.readers = [] ∧ p.work = w := by
  have read (r : Reader) (outer : List Reader) (line : Line) :
      readLine o p.work r outer line ≠ .done w := by
    rw [readLine_eq]
    split <;> exact fun done => nomatch done
  unfold step
  split
  · rename_i none
    simp [none]
  · rename_i r outer readers
    rw [readers]
    simp only [reduceCtorEq, false_and, iff_false]
    split
    · split
      · exact read _ _ _
      · exact fun done => nomatch done
    · split
      · exact read _ _ _
      · unfold endFile
        split
        · exact fun done => nomatch done
        · split <;> exact fun done => nomatch done

theorem dropped_of_ended (ended : p.Ended) (first : step o p = .more next)
    (rest : Reaches o next q) : q.readers = [] := by
  obtain ⟨r, readers, replays, pending⟩ := ended
  have dropped : next.readers = [] := by
    simp only [step, readers, replays, pending, endFile] at first
    split at first
    · cases first
    · split at first
      · cases first
        rfl
      · cases first
  rcases Relation.ReflTransGen.cases_head rest with same | ⟨_, second, _⟩
  · rw [← same, dropped]
  · have stops : step o next = .done next.work := done_iff.2 ⟨dropped, rfl⟩
    rw [stops] at second
    cases second

theorem unended_of_reaches (first : step o p = .more next) (rest : Reaches o next q)
    (ended : q.Ended) : ¬ p.Ended := by
  intro finished
  obtain ⟨r, readers, -, -⟩ := ended
  rw [dropped_of_ended finished first rest] at readers
  cases readers

theorem ended_unique {q' : Preprocess} (reaches : Reaches o p q) (reaches' : Reaches o p q')
    (ended : q.Ended) (ended' : q'.Ended) : q = q' := by
  have unique : Relator.RightUnique fun p next => step o p = .more next := by
    intro p next next' first first'
    rw [first] at first'
    cases first'
    rfl
  have last {q q' : Preprocess} (ended : q.Ended) (ended' : q'.Ended) (reaches : Reaches o q q') :
      q = q' := by
    rcases Relation.ReflTransGen.cases_head reaches with same | ⟨next, first, rest⟩
    · exact same
    · exact absurd ended (unended_of_reaches first rest ended')
  rcases Relation.ReflTransGen.total_of_right_unique unique reaches reaches' with on | back
  · exact last ended ended' on
  · exact (last ended' ended back).symm

theorem finishes_around (within : p.Within) : Finishes o (s.around p) w ↔
    ∃ q, Reaches o p q ∧ q.Ended ∧ q.Within ∧ Finishes o (s.around q) w := by
  constructor
  · intro finishes
    generalize given : s.around p = whole at finishes
    induction finishes generalizing p with
    | done last =>
      obtain ⟨inner, r, blocks, readers, -⟩ := within
      obtain ⟨none, -⟩ := done_iff.1 last
      rw [← given] at none
      simp only [Placement.around, readers, s.modifyLast_append] at none
      exact absurd none (by simp)
    | more first rest ih =>
      by_cases ended : p.Ended
      · exact ⟨p, .refl, ended, within, by rw [given]; exact .more first rest⟩
      · rw [← given, more_around s within ended] at first
        obtain ⟨inner, first, same⟩ := first
        obtain ⟨q, reaches, ended, within, finishes⟩ :=
          ih (within_step within ended first) same.symm
        exact ⟨q, .head first reaches, ended, within, finishes⟩
  · rintro ⟨q, reaches, ended, -, finishes⟩
    induction reaches using Relation.ReflTransGen.head_induction_on with
    | refl => exact finishes
    | head first rest ih =>
      rename_i p next
      have unended := unended_of_reaches first rest ended
      exact .more ((more_around s within unended).2 ⟨next, first, rfl⟩)
        (ih (within_step within unended first))

end

/-- The runs from two states both end well or neither does, and what they gather differs in line
numbers alone. -/
structure EndsAlike (o : Options) (p q : Preprocess) : Prop where
  left : ∀ w, Finishes o p w → ∃ w', Finishes o q w' ∧ w.Alike w'
  right : ∀ w', Finishes o q w' → ∃ w, Finishes o p w ∧ w.Alike w'

section

variable {o : Options} {p q q' : Preprocess}

theorem EndsAlike.symm (same : EndsAlike o p q) : EndsAlike o q p := by
  constructor
  · intro w finishes
    obtain ⟨w', finishes', alike⟩ := same.right w finishes
    exact ⟨w', finishes', alike.symm⟩
  · intro w finishes
    obtain ⟨w', finishes', alike⟩ := same.left w finishes
    exact ⟨w', finishes', alike.symm⟩

theorem EndsAlike.trans (same : EndsAlike o p q) (same' : EndsAlike o q q') :
    EndsAlike o p q' := by
  constructor
  · intro w finishes
    obtain ⟨w', finishes', alike⟩ := same.left w finishes
    obtain ⟨w'', finishes'', alike'⟩ := same'.left w' finishes'
    exact ⟨w'', finishes'', alike.trans alike'⟩
  · intro w finishes
    obtain ⟨w', finishes', alike⟩ := same'.right w finishes
    obtain ⟨w'', finishes'', alike'⟩ := same.right w' finishes'
    exact ⟨w'', finishes'', alike'.trans alike⟩

theorem Alike.endsAlike (same : p.Alike q) : EndsAlike o p q := by
  constructor
  · exact fun w => same.finishes
  · intro w finishes
    obtain ⟨w', finishes', alike⟩ := same.symm.finishes finishes
    exact ⟨w', finishes', alike.symm⟩

theorem endsAlike_of_reaches (reaches : Reaches o p q) : EndsAlike o p q := by
  constructor
  · exact fun w finishes => ⟨w, (finishes_of_reaches reaches).1 finishes, .refl w⟩
  · exact fun w finishes => ⟨w, (finishes_of_reaches reaches).2 finishes, .refl w⟩

theorem endsAlike_placed (s s' : Placement) (within : p.Within)
    (after : ∀ q, Reaches o p q → q.Ended → q.Within → EndsAlike o (s.around q) (s'.around q)) :
    EndsAlike o (s.around p) (s'.around p) := by
  constructor
  · intro w finishes
    obtain ⟨q, reaches, ended, within', finishes⟩ := (finishes_around s within).1 finishes
    obtain ⟨w', finishes', alike⟩ := (after q reaches ended within').left w finishes
    exact ⟨w', (finishes_around s' within).2 ⟨q, reaches, ended, within', finishes'⟩, alike⟩
  · intro w finishes
    obtain ⟨q, reaches, ended, within', finishes⟩ := (finishes_around s' within).1 finishes
    obtain ⟨w', finishes', alike⟩ := (after q reaches ended within').right w finishes
    exact ⟨w', (finishes_around s within).2 ⟨q, reaches, ended, within', finishes'⟩, alike⟩

theorem frames_of_ended (ended : p.Ended) (within : p.Within) :
    ∃ r global, p.readers = [r] ∧ r.replays = [] ∧ r.pending = [] ∧ r.top = .ofFile global ∧
      r.below = [] := by
  obtain ⟨r, readers, replays, pending⟩ := ended
  obtain ⟨inner, r', blocks, readers', opens, balanced⟩ := within
  have same : inner = [] ∧ r' = r := by
    rw [readers] at readers'
    cases inner with
    | nil => exact ⟨rfl, (List.cons.inj readers').1.symm⟩
    | cons i inner => simp at readers'
  obtain ⟨rfl, rfl⟩ := same
  rw [pending, List.map_nil, BlockFlow.isBalanced, List.isEmpty_iff] at balanced
  have below : r'.below = [] := by
    cases stack : r'.below with
    | nil => rfl
    | cons f below =>
      have blocks := opens.cons (by simp [stack])
      rw [balanced, replays] at blocks
      cases blocks
  obtain ⟨⟨global, top⟩, -⟩ := opens.bottom below
  exact ⟨r', global, readers, replays, pending, top, below⟩

end

end Preprocess

end WordAsm
