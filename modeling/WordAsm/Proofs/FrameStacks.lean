import Mathlib.Data.List.Forall2
import WordAsm.Proofs.LineEffects
import WordAsm.Proofs.Placements

/-!
The two stacks of a reader. Its frames are the blocks that are open, and its replays are where
lines come from before those of the file. Whatever the lines are, also those that the arguments of
a macro bring in, the replays are those of the frames that are replaying, in the same order.
-/
namespace WordAsm

namespace Frame

def Within (f outer : Frame) : Prop :=
  outer.isActive = false →
    f.isActive = false ∧ f.remaining = 0 ∧ (f.kind = .conditional → f.isSettled = true)

/-- Whether lines are read again for a frame is a matter of its kind and of whether they are
used. -/
def Replays (f : Frame) : Prop := f.isReplaying = (f.captures && f.isActive)

inductive Stacked : List Frame → Prop
  | file {f : Frame} (kind : f.kind = .bottom) (used : f.isActive = true) (replays : f.Replays) :
      Stacked [f]
  | block {f outer : Frame} {below : List Frame} (kind : f.kind ≠ .bottom) (replays : f.Replays)
      (within : f.Within outer) (stacked : Stacked (outer :: below)) :
      Stacked (f :: outer :: below)

section

variable {f f' outer : Frame} {frames frames' below : List Frame}

theorem Stacked.congr (stacked : Stacked frames) (same : frames'.map shape = frames.map shape) :
    Stacked frames' := by
  induction stacked generalizing frames' with
  | @file f kind used replays =>
    obtain ⟨f', rfl, here⟩ := List.map_eq_singleton_iff.1 same
    have file : f'.shape.kind = .bottom ∧ f'.shape.isActive = true ∧ f'.shape.Replays := by
      rw [here]
      exact ⟨kind, used, replays⟩
    exact .file file.1 file.2.1 file.2.2
  | @block f outer below kind replays within _ ih =>
    obtain ⟨f', rest, rfl, here, later⟩ := List.map_eq_cons_iff.1 same
    obtain ⟨outer', below', rfl, next, last⟩ := List.map_eq_cons_iff.1 later
    have block : f'.shape.kind ≠ .bottom ∧ f'.shape.Replays ∧ f'.shape.Within outer'.shape := by
      rw [here, next]
      exact ⟨kind, replays, within⟩
    exact .block block.1 block.2.1 block.2.2 (ih later)

theorem Stacked.replays (stacked : Stacked frames) : ∀ f ∈ frames, f.Replays := by
  induction stacked with
  | file _ _ replays => exact List.forall_mem_singleton.2 replays
  | block _ replays _ _ ih => exact List.forall_mem_cons.2 ⟨replays, ih⟩

theorem Stacked.tail (stacked : Stacked (f :: outer :: below)) : Stacked (outer :: below) := by
  cases stacked with
  | block _ _ _ stacked => exact stacked

theorem Stacked.replace (stacked : Stacked (f :: below)) (kind : f'.kind = f.kind)
    (used : f.kind = .bottom → f.isActive = true → f'.isActive = true) (replays : f'.Replays)
    (within : ∀ outer, f.Within outer → f'.Within outer) : Stacked (f' :: below) := by
  cases stacked with
  | file bottom active _ => exact .file (kind.trans bottom) (used bottom active) replays
  | block other _ inside stacked => exact .block (kind ▸ other) replays (within _ inside) stacked

theorem Stacked.bottom (stacked : Stacked frames) : ∃ blocks f, frames = blocks ++ [f] ∧
    f.kind = .bottom ∧ f.isActive = true ∧ ∀ block ∈ blocks, block.kind ≠ .bottom := by
  induction stacked with
  | @file f kind used _ => exact ⟨[], f, rfl, kind, used, by simp⟩
  | @block f outer below kind _ _ _ ih =>
    obtain ⟨blocks, last, split, bottom, used, others⟩ := ih
    exact ⟨f :: blocks, last, by rw [split, List.cons_append], bottom, used,
      List.forall_mem_cons.2 ⟨kind, others⟩⟩

theorem Stacked.nested (stacked : Stacked frames) :
    frames.Pairwise fun inner outer => inner.isActive = true → outer.isActive = true := by
  induction stacked with
  | file _ _ _ => exact List.pairwise_singleton _ _
  | @block f outer below _ _ within _ ih =>
    have next : f.isActive = true → outer.isActive = true := by
      intro used
      by_contra skipped
      have unused := (within (Bool.eq_false_iff.2 skipped)).1
      rw [used] at unused
      cases unused
    have further := (List.pairwise_cons.1 ih).1
    constructor
    · exact List.forall_mem_cons.2 ⟨next, fun g member used => further g member (next used)⟩
    · exact ih

theorem Stacked.push (stacked : Stacked (outer :: below)) (opened : f.Opened outer.isActive) :
    Stacked (f :: outer :: below) := by
  have fresh : f.kind ≠ .bottom ∧ f.Replays ∧ f.Within outer := by
    generalize active : outer.isActive = isActive at opened
    cases opened <;> simp [Replays, Within, captures, active]
  exact .block fresh.1 fresh.2.1 fresh.2.2 stacked

theorem filter_captureAll (line : Line) (frames : List Frame) :
    (captureAll line frames).filter isReplaying = frames.filter isReplaying := by
  induction frames with
  | nil => rfl
  | cons f rest ih =>
    simp only [captureAll]
    split
    · rfl
    · rename_i still
      have shown : (f.capture line).isReplaying = f.isReplaying := by
        unfold capture
        split <;> rfl
      rw [List.filter_cons_of_neg still, List.filter_cons_of_neg (shown ▸ still), ih]

end

end Frame

def Replay.Of (replay : Replay) (f : Frame) : Prop :=
  replay.body = f.captured.reverse ∧ replay.rest <:+ replay.body

namespace Reader

/-- What every line keeps to. -/
structure Aligned (r : Reader) : Prop where
  stacked : Frame.Stacked r.frames
  sourced : r.Sourced
  replays : List.Forall₂ Replay.Of r.replays (r.frames.filter Frame.isReplaying)

/-- The stacks of a reader are in step. -/
structure InStep (r : Reader) : Prop where
  /-- The last frame is that of the file. -/
  bottom : ∃ blocks f, r.frames = blocks ++ [f] ∧ f.kind = .bottom ∧ f.isActive = true ∧
    ∀ block ∈ blocks, block.kind ≠ .bottom
  /-- Around a block that is used, all blocks are used. -/
  nested : r.frames.Pairwise fun inner outer => inner.isActive = true → outer.isActive = true
  /-- The lines of repetitions and macros are used when they are read again, and only then. -/
  replaying : ∀ f ∈ r.frames,
    f.isReplaying = true ↔ (f.kind = .repetition ∨ ∃ d, f.kind = .expansion d) ∧ f.isActive = true
  /-- There is one replay for each frame that is replaying. -/
  replays : List.Forall₂ Replay.Of r.replays (r.frames.filter Frame.isReplaying)
  /-- Lines come from the innermost of them. -/
  innermost : Option.Rel Replay.Of r.replays.head? (r.frames.find? Frame.isReplaying)
  /-- Each replay names the place of its frame. -/
  levels : r.replays.map Replay.level = Frame.levels r.frames
  /-- So the innermost block is the one that lines are read for just if it is replaying. -/
  source : r.isSource = r.top.isReplaying

section

variable {r : Reader} {f : Frame} {body : List Line}

theorem Aligned.inStep (aligned : r.Aligned) : r.InStep := by
  refine ⟨aligned.stacked.bottom, aligned.stacked.nested, ?_, aligned.replays, ?_,
    aligned.sourced, aligned.sourced.isSource⟩
  · intro f member
    have replays : f.isReplaying = (f.captures && f.isActive) := aligned.stacked.replays f member
    rw [replays, Bool.and_eq_true]
    have captures : f.captures = true ↔ f.kind = .repetition ∨ ∃ d, f.kind = .expansion d := by
      unfold Frame.captures
      split <;> rename_i kind <;> simp [kind]
    rw [captures]
  · have all := aligned.replays
    rw [← List.head?_filter]
    generalize r.frames.filter Frame.isReplaying = replaying at all ⊢
    generalize r.replays = replays at all ⊢
    cases all with
    | nil => exact .none
    | cons here _ => exact .some here

theorem aligned_ofSource (file source global : String) : (ofSource file source global).Aligned :=
  ⟨.file rfl rfl rfl, rfl, .nil⟩

theorem Aligned.set_top (aligned : r.Aligned) (stacked : Frame.Stacked (f :: r.below))
    (replaying : f.isReplaying = r.top.isReplaying) (captured : f.captured = r.top.captured) :
    Aligned { r with top := f } := by
  refine ⟨stacked, aligned.sourced.set_top replaying, ?_⟩
  have all := aligned.replays
  simp only [Reader.frames, List.filter_cons, replaying] at all ⊢
  generalize r.replays = replays at all ⊢
  cases again : r.top.isReplaying with
  | true =>
    simp only [again, if_true] at all ⊢
    cases all with
    | cons here later => exact .cons ⟨captured ▸ here.1, here.2⟩ later
  | false =>
    simp only [again, Bool.false_eq_true, if_false] at all ⊢
    exact all

theorem Aligned.setGlobal (aligned : r.Aligned) (global : String) :
    Aligned { r with top := { r.top with global } } :=
  aligned.set_top (aligned.stacked.congr rfl) rfl rfl

theorem Aligned.push (aligned : r.Aligned) (opened : f.Opened r.top.isActive) :
    (r.push f).Aligned := by
  have fresh : f.isReplaying = false := by
    generalize r.top.isActive = isActive at opened
    cases opened <;> rfl
  refine ⟨(aligned.stacked.push opened).congr rfl, aligned.sourced.push fresh, ?_⟩
  have all := aligned.replays
  simp only [Reader.frames, Reader.push, List.filter_cons, fresh] at all ⊢
  exact all

theorem Aligned.branch (aligned : r.Aligned) {isActive isSettled : Bool}
    (conditional : r.top.kind = .conditional) (once : isActive = true → r.top.isSettled = false)
    (settled : r.top.isSettled = true → isSettled = true) :
    Aligned { r with top := { r.top with isActive, isSettled } } := by
  have replays : r.top.isReplaying = (r.top.captures && r.top.isActive) :=
    aligned.stacked.replays r.top (List.mem_cons_self ..)
  have plain : r.top.captures = false := by simp only [Frame.captures, conditional]
  refine aligned.set_top (aligned.stacked.replace rfl ?_ ?_ ?_) rfl rfl
  · intro bottom
    rw [conditional] at bottom
    cases bottom
  · change r.top.isReplaying = (r.top.captures && isActive)
    rw [replays, plain, Bool.false_and, Bool.false_and]
  · intro outer within skipped
    obtain ⟨_, remaining, taken⟩ := within skipped
    have taken := taken conditional
    refine ⟨?_, remaining, fun _ => settled taken⟩
    by_contra used
    rw [once (by simpa using used)] at taken
    cases taken

theorem Aligned.replayTop (aligned : r.Aligned) (kind : r.top.kind = .repetition)
    (more : 0 < r.top.remaining) : r.replayTop.Aligned := by
  have captures : r.top.captures = true := by simp only [Frame.captures, kind]
  have replays : r.top.isReplaying = (r.top.captures && r.top.isActive) :=
    aligned.stacked.replays r.top (List.mem_cons_self ..)
  rw [captures, Bool.true_and] at replays
  -- Nothing is left of a repetition in a block that is skipped, so this one is in none.
  have within : ∀ (f outer : Frame), r.top.Within outer → f.Within outer := by
    intro f outer within skipped
    have none := (within skipped).2.1
    omega
  have file : r.top.kind ≠ .bottom := by simp [kind]
  have all := aligned.replays
  simp only [Reader.frames, List.filter_cons] at all
  have sourced := aligned.sourced.replay_top
  unfold Reader.replayTop at sourced ⊢
  dsimp only at sourced ⊢
  split
  · rename_i replaying
    rw [replaying, if_pos rfl] at all
    rw [if_pos replaying] at sourced
    refine ⟨?_, sourced, ?_⟩
    · refine aligned.stacked.replace rfl (fun bottom => absurd bottom file) ?_ (within _)
      change r.top.isReplaying = (r.top.captures && r.top.isActive)
      rw [captures, Bool.true_and, replays]
    · simp only [Reader.frames, List.filter_cons, replaying, if_true]
      generalize r.replays = stack at all ⊢
      cases all with
      | cons here later => exact .cons ⟨here.1, List.suffix_refl _⟩ later
  · rename_i capturing
    rw [if_neg capturing] at all
    rw [if_neg capturing] at sourced
    refine ⟨?_, sourced, ?_⟩
    · refine aligned.stacked.replace rfl (fun bottom => absurd bottom file) ?_ (within _)
      change true = (r.top.captures && true)
      rw [captures, Bool.true_and]
    · simp only [Reader.frames, List.filter_cons, if_true]
      exact .cons ⟨rfl, List.suffix_refl _⟩ all

theorem Aligned.pop (aligned : r.Aligned) {outer : Frame} {below : List Frame}
    (stack : r.below = outer :: below) : (r.pop outer below).Aligned := by
  have levels : (r.pop outer below).replays.map Replay.level = Frame.levels (outer :: below) :=
    aligned.sourced.pop stack
  obtain ⟨frames, sourced, replays⟩ := aligned
  simp only [Reader.frames, stack] at frames replays
  have left : List.Forall₂ Replay.Of (if r.isSource then r.replays.drop 1 else r.replays)
      ((outer :: below).filter Frame.isReplaying) := by
    rw [sourced.isSource]
    cases replaying : r.top.isReplaying with
    | true =>
      rw [List.filter_cons_of_pos replaying] at replays
      generalize r.replays = stack at replays ⊢
      cases replays with
      | cons _ later => exact later
    | false =>
      rw [List.filter_cons_of_neg (by simp [replaying])] at replays
      exact replays
  have closed : Aligned { r with
      top := outer, below, replays := if r.isSource then r.replays.drop 1 else r.replays } :=
    ⟨frames.tail, levels, left⟩
  exact closed.setGlobal _

theorem Aligned.expand (aligned : r.Aligned) (used : r.top.isActive = true) :
    (r.pushReplay (.ofExpansion body) body).Aligned := by
  refine ⟨?_, aligned.sourced.push_replay rfl body, ?_⟩
  · have stacked : Frame.Stacked (.ofExpansion body :: r.top :: r.below) := by
      refine .block (by simp [Frame.ofExpansion]) rfl ?_ aligned.stacked
      intro skipped
      rw [used] at skipped
      cases skipped
    exact stacked.congr rfl
  · refine .cons ?_ aligned.replays
    exact ⟨(List.reverse_reverse body).symm, List.suffix_refl _⟩

theorem Aligned.capture (aligned : r.Aligned) (line : Line) : (r.capture line).Aligned := by
  refine ⟨?_, aligned.sourced.capture line, ?_⟩
  · rw [frames_capture]
    exact aligned.stacked.congr (Frame.shape_captureAll line r.frames)
  · rw [frames_capture, Frame.filter_captureAll, (replays_capture line r).1]
    exact aligned.replays

theorem Aligned.take (aligned : r.Aligned) {line : Line} {taken : Reader}
    (took : r.take? = some (line, taken)) : taken.Aligned := by
  obtain ⟨frames, sourced, replays⟩ := aligned
  unfold take? at took
  split at took
  · rename_i replay rest source
    rw [source] at replays
    split at took
    · rename_i lines next
      cases took
      generalize list : r.frames.filter Frame.isReplaying = replaying at replays
      cases replays with
      | cons here later =>
        have remain : lines <:+ replay.body := by
          have all := here.2
          rw [next] at all
          exact (List.suffix_cons line lines).trans all
        have kept : Sourced { r with replays := { replay with rest := lines } :: rest } := by
          unfold Sourced at sourced ⊢
          rw [source] at sourced
          exact sourced
        refine ⟨frames, kept, ?_⟩
        change List.Forall₂ _ _ (r.frames.filter Frame.isReplaying)
        rw [list]
        exact .cons ⟨here.1, remain⟩ later
    · cases took
  · split at took
    · cases took
      exact ⟨frames, sourced, replays⟩
    · cases took

theorem Effect.ne_nil {o : Options} {w w' : Work} {line : Line} {event : Option MacroEvent}
    {readers : List Reader} (effect : Effect o w r line event w' readers) : readers ≠ [] := by
  cases effect <;> simp

theorem Effect.aligned {o : Options} {w w' : Work} {line : Line} {event : Option MacroEvent}
    {readers : List Reader} (effect : Effect o w r line event w' readers) (aligned : r.Aligned) :
    ∀ r' ∈ readers, r'.Aligned := by
  cases effect with
  | stays _ => simpa using aligned
  | labels _ global => simpa using aligned.setGlobal global
  | opens opened => simpa using aligned.push opened
  | branches conditional once settled => simpa using aligned.branch conditional once settled
  | replays _ kind more => simpa using aligned.replayTop kind more
  | closes stack => simpa using aligned.pop stack
  | includes => simpa using ⟨aligned_ofSource _ _ r.top.global, aligned⟩
  | invokes _ used => simpa using aligned.expand used

end

end Reader

namespace Preprocess

theorem Moves.aligned {o : Options} {p next : Preprocess} (moves : Moves o p next)
    (aligned : ∀ r ∈ p.readers, r.Aligned) : ∀ r ∈ next.readers, r.Aligned := by
  cases moves with
  | ended stack _ _ _ _ _ left =>
    intro r member
    exact aligned r (by simp [stack, ← left, member])
  | @read r taken line waiting readers stack took effect _ left =>
    have here : taken.Aligned := (aligned r (by simp [stack])).take took
    have shown : (showing taken line).Aligned :=
      ⟨(here.capture _).stacked, (here.capture _).sourced, (here.capture _).replays⟩
    intro r' member
    rw [left] at member
    cases List.mem_append.1 member with
    | inl inner => exact effect.aligned shown r' inner
    | inr outer => exact aligned r' (by simp [stack, outer])

theorem aligned_reached {o : Options} {file source : String} {p : Preprocess}
    (reached : Reaches o (start file source) p) : ∀ r ∈ p.readers, r.Aligned := by
  induction reached with
  | refl =>
    intro r member
    rw [List.mem_singleton.1 member]
    exact Reader.aligned_ofSource file source ""
  | tail _ first ih => exact (moves_step first).aligned ih

theorem Moves.closed {o : Options} {p next : Preprocess} (moves : Moves o p next) {r : Reader}
    {waiting : List Reader} (stack : p.readers = r :: waiting) (left : next.readers = waiting) :
    r.below = [] ∧ r.replays = [] ∧ r.pending = [] := by
  cases moves with
  | ended stack' _ replays pending below _ _ =>
    rw [stack] at stack'
    cases stack'
    exact ⟨below, replays, pending⟩
  | @read r' taken line waiting' readers stack' _ effect _ left' =>
    rw [stack] at stack'
    cases stack'
    rw [left] at left'
    exact absurd (List.self_eq_append_left.1 left') effect.ne_nil

/-- The stacks of all readers are in step between any two lines, and reading ends well only when
every block is closed and nothing is replayed. -/
theorem stacks_in_step {o : Options} {file source : String} {p : Preprocess}
    (reached : Reaches o (start file source) p) :
    (∀ r ∈ p.readers, r.InStep) ∧
    (∀ r waiting next, p.readers = r :: waiting → step o p = .more next →
      next.readers = waiting → r.below = [] ∧ r.replays = [] ∧ r.pending = []) ∧
    ∀ w, step o p = .done w → p.readers = [] := by
  refine ⟨?_, ?_, ?_⟩
  · intro r member
    exact (aligned_reached reached r member).inStep
  · intro r waiting next stack first left
    exact (moves_step first).closed stack left
  · intro w last
    exact (done_iff.1 last).1

def repeated : String :=
  ".macro twice(n)\n.rep 2\nDAT n\n.end\n.end\n.if 1\ntwice(7)\n.end\n"

-- While the repetition is replayed, so is the macro around it.
theorem stacks_in_step_repeated : ∃ p r, Reaches {} (start "twice" repeated) p ∧ p.readers = [r] ∧
    r.frames.map Frame.kind = [.repetition, .expansion none, .conditional, .bottom] ∧
    r.replays.map (fun replay => replay.rest.map Line.tokens) = [[[".end"]], [[".end"]]] ∧
    r.InStep := by
  have computed : (advance {} 11 (start "twice" repeated)).map (fun p => p.readers.map fun r =>
      (r.frames.map Frame.kind, r.replays.map fun replay => replay.rest.map Line.tokens)) =
      some [([.repetition, .expansion none, .conditional, .bottom],
        [[[".end"]], [[".end"]]])] := by
    decide +kernel
  obtain ⟨p, advanced, shown⟩ := Option.map_eq_some_iff.1 computed
  obtain ⟨r, stack, here⟩ := List.map_eq_singleton_iff.1 shown
  obtain ⟨kinds, replays⟩ := Prod.mk.inj here
  have reached : Reaches {} (start "twice" repeated) p := reaches_of_advance advanced
  exact ⟨p, r, reached, stack, kinds, replays, (stacks_in_step reached).1 r (by simp [stack])⟩

end Preprocess

end WordAsm
