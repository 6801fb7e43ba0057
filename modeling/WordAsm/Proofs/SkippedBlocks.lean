import WordAsm.Proofs.Blocks

/-!
Lines that are skipped. In a branch that is not taken nothing is used and nothing is gathered:
lines only open and close blocks, and at the end of a text whose blocks match the frames are those
that were there before.
-/
namespace WordAsm

namespace Frame

def ofIf (isActive isSettled : Bool) (global : String) : Frame :=
  { kind := .conditional, isActive, isSettled, global }

structure IsSkipped (global : String) (f : Frame) : Prop where
  active : f.isActive = false
  replaying : f.isReplaying = false
  namespaced : f.global = global
  kind : (f.kind = .conditional ∧ f.isSettled = true) ∨
    (f.kind = .repetition ∧ f.remaining = 0) ∨ f.kind = .expansion none

theorem IsSkipped.capture {global : String} {f : Frame} (skipped : f.IsSkipped global)
    (line : Line) : (f.capture line).IsSkipped global := by
  unfold Frame.capture
  split
  · exact ⟨skipped.active, skipped.replaying, skipped.namespaced, skipped.kind⟩
  · exact skipped

theorem captureAll_skipped {global : String} (line : Line) {opened : List Frame}
    (skipped : ∀ f ∈ opened, f.IsSkipped global) (rest : List Frame) :
    captureAll line (opened ++ rest) = opened.map (capture line) ++ captureAll line rest := by
  induction opened with
  | nil => rfl
  | cons f opened ih =>
    have here := (skipped f List.mem_cons_self).replaying
    rw [List.cons_append, captureAll, here, if_neg Bool.false_ne_true,
      ih fun g inside => skipped g (List.mem_cons_of_mem f inside), List.map_cons, List.cons_append]

end Frame

namespace Frame

def Idles (global : String) : List Frame → Prop
  | [] => False
  | f :: _ => f.isActive = false ∧ f.global = global

theorem Idles.captureAll {global : String} {frames : List Frame} (idles : Idles global frames)
    (line : Line) : Idles global (captureAll line frames) := by
  cases frames with
  | nil => exact idles
  | cons f rest =>
    unfold Frame.captureAll
    split
    · exact idles
    · unfold Frame.capture
      split <;> exact idles

end Frame

namespace Reader

/-- The reader skips lines above these frames, in which these other blocks are open. -/
structure SkipsAbove (rest : List Frame) (global : String) (blocks : List Bool) (r : Reader) :
    Prop where
  idles : Frame.Idles global rest
  replays : r.replays = []
  frames : ∃ opened : List Frame, r.frames = opened ++ rest ∧
    (∀ f ∈ opened, f.IsSkipped global) ∧ opened.map (fun f => f.kind == .conditional) = blocks

section

variable {o : Options} {w : Work} {r : Reader} {line : Line} {name : String} {rest : List Frame}
  {global : String} {blocks blocks' : List Bool}

theorem SkipsAbove.top (skips : r.SkipsAbove rest global blocks) :
    r.top.isActive = false ∧ r.top.global = global := by
  obtain ⟨opened, frames, skipped, -⟩ := skips.frames
  cases opened with
  | nil =>
    have idles := skips.idles
    rw [← List.nil_append rest, ← frames] at idles
    exact idles
  | cons f opened =>
    have top : r.top = f := (List.cons.inj frames).1
    have here := skipped f List.mem_cons_self
    rw [top]
    exact ⟨here.active, here.namespaced⟩

theorem SkipsAbove.capture (skips : r.SkipsAbove rest global blocks) (line : Line) :
    (r.capture line).SkipsAbove (Frame.captureAll line rest) global blocks := by
  obtain ⟨opened, frames, skipped, kinds⟩ := skips.frames
  refine ⟨skips.idles.captureAll line, ?_, opened.map (Frame.capture line), ?_, ?_, ?_⟩
  · rw [(replays_capture line r).1]
    exact skips.replays
  · rw [frames_capture, frames, Frame.captureAll_skipped line skipped]
  · intro f shown
    obtain ⟨g, inside, rfl⟩ := List.mem_map.1 shown
    exact (skipped g inside).capture line
  · rw [← kinds, List.map_map]
    refine List.map_congr_left fun f _ => ?_
    simp only [Function.comp, Frame.capture]
    split <;> rfl

theorem SkipsAbove.push (skips : r.SkipsAbove rest global blocks) {f : Frame}
    (skipped : Frame.IsSkipped global { f with global }) :
    (r.push f).SkipsAbove rest global ((f.kind == .conditional) :: blocks) := by
  obtain ⟨opened, frames, others, kinds⟩ := skips.frames
  refine ⟨skips.idles, skips.replays, { f with global } :: opened, ?_, ?_, ?_⟩
  · simp only [Reader.frames, Reader.push, skips.top.2, List.cons_append, ← frames]
  · intro g inside
    rcases List.mem_cons.1 inside with rfl | inside
    · exact skipped
    · exact others g inside
  · rw [List.map_cons, kinds]

theorem SkipsAbove.pop (skips : r.SkipsAbove rest global blocks) {b : Bool}
    (opened : blocks = b :: blocks') :
    ∃ f below, r.below = f :: below ∧ r.top.IsSkipped global ∧
      (r.pop f below).SkipsAbove rest global blocks' := by
  subst opened
  have idles := skips.idles
  obtain ⟨opened, frames, skipped, kinds⟩ := skips.frames
  cases opened with
  | nil => cases kinds
  | cons top opened =>
    obtain ⟨same, below⟩ := List.cons.inj frames
    obtain ⟨-, left⟩ := List.cons.inj kinds
    subst same
    have here := skipped _ List.mem_cons_self
    have others : ∀ f ∈ opened, f.IsSkipped global := by
      intro f inside
      exact skipped f (List.mem_cons_of_mem _ inside)
    -- The frame below has the same namespace, so that it does not change.
    have kept (f : Frame) (below : List Frame) (same : f.global = global) :
        (r.pop f below).top = f := by
      have namespaced : (r.pop f below).top.global = global := by
        unfold Reader.pop
        dsimp only
        split
        · exact same
        · exact here.namespaced
      have whole : (r.pop f below).top = { f with global := (r.pop f below).top.global } := rfl
      rw [whole, namespaced, ← same]
    have replays (f : Frame) (below : List Frame) : (r.pop f below).replays = [] := by
      simp only [Reader.pop, skips.replays, List.drop_nil, ite_self]
    cases opened with
    | nil =>
      cases rest with
      | nil => cases idles
      | cons f rest =>
        refine ⟨f, rest, below, here, idles, replays f rest, [], ?_, others, left⟩
        exact congrArg (· :: rest) (kept f rest idles.2)
    | cons f opened =>
      refine ⟨_, _, below, here, idles, replays _ _, f :: opened, ?_, others, left⟩
      exact congrArg (· :: _) (kept _ _ (others f List.mem_cons_self).namespaced)

end

end Reader

namespace Directive

section

variable {o : Options} {w : Work} {r : Reader} {line : Line} {name : String} {isConditional : Bool}

theorem apply_opening (flow : BlockFlow.ofName? name = some (.opening isConditional))
    (inactive : r.top.isActive = false) :
    ∃ f : Frame, apply o w r line name = .ok (w, [r.push f]) ∧
      (∀ global, Frame.IsSkipped global { f with global }) ∧
      (f.kind == .conditional) = isConditional := by
  unfold BlockFlow.ofName? at flow
  split at flow
  iterate 3
    · cases flow
      refine ⟨{ kind := .conditional, isActive := false, isSettled := true }, ?_, ?_, rfl⟩
      · simp only [apply, onReader, openIf, inactive]
        rfl
      · exact fun global => ⟨rfl, rfl, rfl, .inl ⟨rfl, rfl⟩⟩
  · cases flow
    refine ⟨{ kind := .repetition, isActive := false }, ?_, ?_, rfl⟩
    · simp only [apply, onReader, openRep, inactive]
      rfl
    · exact fun global => ⟨rfl, rfl, rfl, .inr (.inl ⟨rfl, rfl⟩)⟩
  · cases flow
    refine ⟨{ kind := .expansion none, isActive := false }, ?_, ?_, rfl⟩
    · simp only [apply, onReader, openMacro, inactive]
      rfl
    · exact fun global => ⟨rfl, rfl, rfl, .inr (.inr rfl)⟩
  iterate 6 cases flow

theorem apply_continuing (flow : BlockFlow.ofName? name = some .continuing)
    (kind : r.top.kind = .conditional) (settled : r.top.isSettled = true) :
    apply o w r line name = .ok (w, [{ r with top := { r.top with isActive := false } }]) := by
  obtain ⟨file, pending, fault, ⟨_, _, _, _, _, _, _⟩, below, replays, last⟩ := r
  dsimp only at kind settled
  subst kind settled
  unfold BlockFlow.ofName? at flow
  split at flow
  iterate 5 cases flow
  iterate 4 rfl
  iterate 2 cases flow

theorem apply_closing (flow : BlockFlow.ofName? name = some .closing) {w' : Work} {r' : Reader}
    (closed : close w r = .ok (w', r')) : apply o w r line name = .ok (w', [r']) := by
  have ending : name = "end" := by
    unfold BlockFlow.ofName? at flow
    split at flow
    iterate 9 cases flow
    · rfl
    · cases flow
  subst ending
  simp only [apply, closed]
  rfl

theorem close_skipped {global : String} (skipped : r.top.IsSkipped global) {f : Frame}
    {below : List Frame} (stack : r.below = f :: below) :
    close w r = .ok (w, r.pop f below) := by
  have done : (r.top.kind == .repetition && decide (0 < r.top.remaining)) = false := by
    rcases skipped.kind with ⟨kind, -⟩ | ⟨-, remaining⟩ | kind
    · rw [kind]
      rfl
    · rw [remaining, Bool.and_eq_false_imp]
      exact fun _ => rfl
    · rw [kind]
      rfl
  have unregistered : register w r.top = w := by
    unfold register
    rcases skipped.kind with ⟨kind, -⟩ | ⟨kind, -⟩ | kind
    iterate 3 rw [kind]
  simp only [close, stack, done, unregistered]
  rfl

end

end Directive

namespace Reader

section

variable {o : Options} {w : Work} {r : Reader} {line : Line} {rest : List Frame}
  {global : String} {blocks blocks' : List Bool}

theorem SkipsAbove.conditional (skips : r.SkipsAbove rest global blocks)
    (opened : blocks.head? = some true) :
    r.top.kind = .conditional ∧ r.top.isSettled = true := by
  obtain ⟨frames, whole, skipped, kinds⟩ := skips.frames
  cases frames with
  | nil =>
    rw [← kinds] at opened
    cases opened
  | cons f frames =>
    have top : r.top = f := (List.cons.inj whole).1
    rw [← kinds, List.map_cons, List.head?_cons, Option.some.injEq, beq_iff_eq] at opened
    rw [top]
    rcases (skipped f List.mem_cons_self).kind with both | ⟨kind, -⟩ | kind
    · exact both
    · rw [opened] at kind
      cases kind
    · rw [opened] at kind
      cases kind

theorem SkipsAbove.handle (skips : r.SkipsAbove rest global blocks)
    (after : BlockFlow.after blocks line.tokens = some blocks') :
    ∃ r', r.handle o w line = .ok (w, [r']) ∧ r'.SkipsAbove rest global blocks' ∧
      r'.pending = r.pending ∧ r'.fault = r.fault ∧ r'.file = r.file := by
  have inactive := skips.top.1
  unfold Reader.handle
  rw [inactive]
  unfold BlockFlow.after BlockFlow.ofTokens? at after
  have first : line.tokens.headD "" = line.first := rfl
  rw [first] at after
  cases named : Token.directive? line.first with
  | none =>
    rw [named] at after
    cases after
    exact ⟨r, rfl, skips, rfl, rfl, rfl⟩
  | some name =>
    rw [named, Option.bind_some] at after
    simp only [Bool.false_or, ← BlockFlow.isFlow_of_ofName]
    cases flow : BlockFlow.ofName? name with
    | none =>
      rw [flow] at after
      cases after
      exact ⟨r, rfl, skips, rfl, rfl, rfl⟩
    | some what =>
      rw [flow] at after
      simp only [Option.isSome_some, if_true]
      cases what with
      | opening isConditional =>
        cases after
        obtain ⟨f, applied, skipped, same⟩ := Directive.apply_opening flow inactive
        refine ⟨_, applied, ?_, rfl, rfl, rfl⟩
        rw [← same]
        exact skips.push (skipped global)
      | continuing =>
        have opened : blocks.head? = some true ∧ blocks' = blocks := by
          dsimp only at after
          split at after
          · rename_i opened
            cases after
            exact ⟨opened, rfl⟩
          · cases after
        obtain ⟨kind, settled⟩ := skips.conditional opened.1
        refine ⟨r, ?_, ?_, rfl, rfl, rfl⟩
        · rw [Directive.apply_continuing flow kind settled, ← inactive]
        · rw [opened.2]
          exact skips
      | closing =>
        obtain ⟨b, left, rfl⟩ : ∃ b left, blocks = b :: left := by
          cases blocks with
          | nil => cases after
          | cons b left => exact ⟨b, left, rfl⟩
        cases after
        obtain ⟨f, below, stack, skipped, skips'⟩ := skips.pop rfl
        have closed := Directive.close_skipped (w := w) skipped stack
        exact ⟨_, Directive.apply_closing flow closed, skips', rfl, rfl, rfl⟩

end

end Reader

namespace Preprocess

section

variable {o : Options} {w : Work} {r : Reader} {rest : List Frame} {global outer : String}
  {blocks blocks' : List Bool} {later : List Line}

theorem step_skips (skips : r.SkipsAbove rest global blocks) {line : Line} {pending : List Line}
    (lines : r.pending = line :: pending)
    (after : BlockFlow.after blocks line.tokens = some blocks') :
    ∃ r', step o ⟨w, [r]⟩ = .more ⟨w, [r']⟩ ∧
      r'.SkipsAbove (Frame.captureAll { line with global } rest) global blocks' ∧
      r'.pending = pending ∧ r'.fault = r.fault ∧ r'.file = r.file := by
  obtain ⟨file, _, fault, top, below, _, last⟩ := r
  cases lines
  obtain rfl := skips.replays
  have begun : Reader.SkipsAbove rest global blocks
      ⟨file, pending, fault, top, below, [], last⟩ := ⟨skips.idles, rfl, skips.frames⟩
  generalize given : Reader.mk file pending fault top below [] last = r at begun
  have shown := begun.capture { line with global := r.top.global }
  rw [begun.top.2] at shown
  have showing : (showing r line).SkipsAbove (Frame.captureAll { line with global } rest) global
      blocks := by
    rw [Preprocess.showing, begun.top.2]
    exact ⟨shown.idles, shown.replays, shown.frames⟩
  have flow : BlockFlow.after blocks (used r line).tokens = some blocks' := by
    rw [← after, BlockFlow.after, BlockFlow.after, flow_used]
  obtain ⟨r', handled, skips', same⟩ := showing.handle (o := o) (w := w) flow
  refine ⟨r', ?_, skips', ?_⟩
  · simp only [step]
    rw [given, readLine_eq, handled]
    rfl
  · obtain ⟨top', below', shown⟩ := Reader.capture_eq { line with global := r.top.global } r
    simp only [Preprocess.showing] at same
    rw [shown, ← given] at same
    exact same

theorem reaches_skipsAbove {lines : List Line} (skips : r.SkipsAbove rest global blocks)
    (pending : r.pending = lines ++ later)
    (balanced : BlockFlow.isBalanced blocks (lines.map Line.tokens) = true) :
    ∃ r', Reaches o ⟨w, [r]⟩ ⟨w, [r']⟩ ∧
      r'.SkipsAbove (lines.foldl (fun rest line => Frame.captureAll { line with global } rest) rest)
        global [] ∧
      r'.pending = later ∧ r'.fault = r.fault ∧ r'.file = r.file := by
  induction lines generalizing r blocks rest with
  | nil =>
    rw [List.map_nil, BlockFlow.isBalanced, List.isEmpty_iff] at balanced
    subst balanced
    exact ⟨r, .refl, skips, pending, rfl, rfl⟩
  | cons line lines ih =>
    rw [List.map_cons, BlockFlow.isBalanced, Option.any_eq_true] at balanced
    obtain ⟨blocks', after, balanced⟩ := balanced
    obtain ⟨r', first, skips', pending', fault, file⟩ := step_skips skips pending after
    obtain ⟨r'', rest, skips'', pending'', fault', file'⟩ := ih skips' pending' balanced
    exact ⟨r'', .head first rest, skips'', pending'', fault'.trans fault, file'.trans file⟩

end

end Preprocess

namespace Reader

/-- The reader skips lines in a branch of a conditional block of the file, in which these other
blocks are open. -/
structure Skips (isSettled : Bool) (global outer : String) (blocks : List Bool) (r : Reader) :
    Prop where
  replays : r.replays = []
  frames : ∃ opened : List Frame,
    r.frames = opened ++ [.ofIf false isSettled global, .ofFile outer] ∧
    (∀ f ∈ opened, f.IsSkipped global) ∧ opened.map (fun f => f.kind == .conditional) = blocks

end Reader

theorem Preprocess.reaches_skips {o : Options} {w : Work} {r : Reader} {isSettled : Bool}
    {global outer : String} {blocks : List Bool} {lines later : List Line}
    (skips : r.Skips isSettled global outer blocks) (pending : r.pending = lines ++ later)
    (balanced : BlockFlow.isBalanced blocks (lines.map Line.tokens) = true) :
    ∃ r', Reaches o ⟨w, [r]⟩ ⟨w, [r']⟩ ∧ r'.Skips isSettled global outer [] ∧
      r'.pending = later ∧ r'.fault = r.fault ∧ r'.file = r.file := by
  have quiet (lines : List Line) : lines.foldl
      (fun rest line => Frame.captureAll { line with global } rest)
      [.ofIf false isSettled global, .ofFile outer] =
        [.ofIf false isSettled global, .ofFile outer] := by
    induction lines with
    | nil => rfl
    | cons line lines ih => exact ih
  have above : r.SkipsAbove [.ofIf false isSettled global, .ofFile outer] global blocks :=
    ⟨⟨rfl, rfl⟩, skips.replays, skips.frames⟩
  obtain ⟨r', reaches, skips', same⟩ := reaches_skipsAbove (o := o) (w := w) above pending balanced
  rw [quiet] at skips'
  exact ⟨r', reaches, ⟨skips'.replays, skips'.frames⟩, same⟩

end WordAsm
