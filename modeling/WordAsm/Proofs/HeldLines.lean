import WordAsm.Proofs.FrameStacks

/-!
The lines that readers hold: those of the file that are still to come, those that the open blocks
have captured, and the line that was read last. A line that is read again has been captured, and
when a macro is invoked the lines of its expansion are. So what is true of the lines of all texts
and expansions, and is kept when a line is read, is true of every line that is ever read.
-/
namespace WordAsm

theorem Tokenizer.written_tokenize (file source : String) :
    ∀ line ∈ (tokenize file source).lines, line.file = file ∧ line.scope = [] := by
  have pieces : ∀ fault pieces, ∀ line ∈ (Lines.ofPieces file fault pieces).lines,
      line.file = file ∧ line.scope = [] := by
    intro fault pieces
    fun_induction Lines.ofPieces file fault pieces with
    | case1 => simp
    | case2 tokens n rest ih => simpa [Lines.cons] using ih
    | case3 n faulty => simp
    | case4 n faulty => simp
    | case5 n next rest goes ih => exact ih
    | case6 n next rest goes ih => simpa [Lines.cons] using ih
  exact pieces _ _

/-- What is true of a line is true of it as it is read: with the namespace that is open, and with a
statement directive in its own spelling. -/
structure Line.Kept (kind : Line → Prop) : Prop where
  opened : ∀ line global, kind line → kind { line with global }
  spelled : ∀ line, kind line → kind (Preprocess.canonical line)

theorem Line.Kept.used {kind : Line → Prop} (kept : Kept kind) (r : Reader) {line : Line}
    (given : kind line) : kind (Preprocess.used r line) := by
  unfold Preprocess.used
  split
  · exact kept.spelled _ (kept.opened line _ given)
  · exact kept.opened line _ given

theorem Frame.captured_captureAll (line : Line) (frames : List Frame) :
    ∀ f ∈ captureAll line frames, ∀ l ∈ f.captured, l = line ∨ ∃ g ∈ frames, l ∈ g.captured := by
  induction frames with
  | nil => simp [captureAll]
  | cons g rest ih =>
    intro f member l inside
    rw [captureAll] at member
    split at member
    · exact .inr ⟨f, member, inside⟩
    · cases List.mem_cons.1 member with
      | inl here =>
        rw [here, capture] at inside
        split at inside
        · cases List.mem_cons.1 inside with
          | inl new => exact .inl new
          | inr old => exact .inr ⟨g, List.mem_cons_self .., old⟩
        · exact .inr ⟨g, List.mem_cons_self .., inside⟩
      | inr later =>
        cases ih f later l inside with
        | inl new => exact .inl new
        | inr old =>
          obtain ⟨g', known, held⟩ := old
          exact .inr ⟨g', List.mem_cons_of_mem g known, held⟩

namespace Reader

/-- The lines that were read last or may still be read are of this kind. -/
structure Holds (kind : Line → Prop) (r : Reader) : Prop where
  pending : ∀ line ∈ r.pending, kind line
  captured : ∀ f ∈ r.frames, ∀ line ∈ f.captured, kind line
  last : ∀ line, r.last = some line → kind line

section

variable {kind : Line → Prop} {r r' : Reader} {line : Line}

theorem holds_ofSource {file source : String}
    (lines : ∀ line ∈ (Tokenizer.tokenize file source).lines, kind line) (global : String) :
    (ofSource file source global).Holds kind := by
  refine ⟨lines, ?_, ?_⟩
  · intro f member line inside
    rw [List.mem_singleton.1 member] at inside
    cases inside
  · intro line last
    cases last

theorem Holds.mono (holds : r.Holds kind) (pending : r'.pending = r.pending)
    (captured : r'.frames.map Frame.captured ⊆ r.frames.map Frame.captured)
    (last : r'.last = r.last) : r'.Holds kind := by
  refine ⟨?_, ?_, ?_⟩
  · rw [pending]
    exact holds.pending
  · intro f member line inside
    obtain ⟨g, known, same⟩ := List.mem_map.1 (captured (List.mem_map_of_mem member))
    exact holds.captured g known line (same ▸ inside)
  · rw [last]
    exact holds.last

theorem Holds.push (holds : r.Holds kind) {f : Frame} (captured : ∀ line ∈ f.captured, kind line) :
    (r.push f).Holds kind := by
  refine ⟨holds.pending, ?_, holds.last⟩
  exact List.forall_mem_cons.2 ⟨captured, holds.captured⟩

theorem Holds.take (holds : r.Holds kind) (aligned : r.Aligned) {taken : Reader}
    (took : r.take? = some (line, taken)) : kind line ∧ taken.Holds kind := by
  have replays := aligned.replays
  unfold take? at took
  split at took
  · rename_i replay rest source
    rw [source] at replays
    split at took
    · rename_i lines next
      cases took
      refine ⟨?_, ⟨holds.pending, holds.captured, holds.last⟩⟩
      obtain ⟨f, frames, here, _, list⟩ := List.forall₂_cons_left_iff.1 replays
      have member : f ∈ r.frames.filter Frame.isReplaying := by simp [list]
      have inside : line ∈ replay.body := here.2.subset (by simp [next])
      rw [here.1, List.mem_reverse] at inside
      exact holds.captured f (List.mem_of_mem_filter member) line inside
    · cases took
  · split at took
    · rename_i pending next
      cases took
      refine ⟨holds.pending line (by simp [next]), ⟨?_, holds.captured, holds.last⟩⟩
      intro l member
      exact holds.pending l (by simp [next, member])
    · cases took

theorem Holds.showing (kept : Line.Kept kind) (holds : r.Holds kind) (given : kind line) :
    (Preprocess.showing r line).Holds kind := by
  refine ⟨?_, ?_, ?_⟩
  · change ∀ l ∈ (r.capture _).pending, kind l
    rw [(replays_capture _ r).2]
    exact holds.pending
  · change ∀ f ∈ (r.capture _).frames, _
    rw [frames_capture]
    intro f member l inside
    cases Frame.captured_captureAll _ r.frames f member l inside with
    | inl new =>
      rw [new]
      exact kept.opened line _ given
    | inr old =>
      obtain ⟨g, known, held⟩ := old
      exact holds.captured g known l held
  · intro l last
    cases last
    exact kept.used r given

theorem Effect.holds {o : Options} {w w' : Work} {event : Option MacroEvent}
    {readers : List Reader} (effect : Effect o w r line event w' readers)
    (included : ∀ path bytes, o.files.read path = .ok bytes →
      ∀ l ∈ (Tokenizer.tokenize path (Text.decode bytes)).lines, kind l)
    (expanded : ∀ (call : Signature) (m : Macro), w.macros[Text.upper call.name]? = some m →
      event = some (.invoked ⟨Text.upper call.name, m.count + 1, line.scope⟩) →
      ∀ l ∈ m.expansion call.arguments line.scope, kind l)
    (holds : r.Holds kind) : ∀ r' ∈ readers, r'.Holds kind := by
  cases effect with
  | stays _ => simpa using holds
  | labels _ global =>
    have labelled : Holds kind { r with top := { r.top with global } } :=
      holds.mono rfl (List.Subset.refl _) rfl
    simpa using labelled
  | @opens f opened =>
    have fresh : f.captured = [] := by
      generalize r.top.isActive = isActive at opened
      cases opened <;> rfl
    have pushed : (r.push f).Holds kind := holds.push (by simp [fresh])
    simpa using pushed
  | @branches isActive isSettled =>
    have branched : Holds kind { r with top := { r.top with isActive, isSettled } } :=
      holds.mono rfl (List.Subset.refl _) rfl
    simpa using branched
  | replays =>
    have again : r.replayTop.Holds kind := by
      unfold replayTop
      dsimp only
      split
      · exact holds.mono rfl (List.Subset.refl _) rfl
      · exact holds.mono rfl (List.Subset.refl _) rfl
    simpa using again
  | @closes outer below stack =>
    have closed : (r.pop outer below).Holds kind := by
      refine holds.mono rfl ?_ rfl
      simp only [frames, stack]
      exact List.subset_cons_self _ _
    simpa using closed
  | includes _ _ found => simpa using ⟨holds_ofSource (included _ _ found) r.top.global, holds⟩
  | @invokes call m known used =>
    have pushed : (r.push (.ofExpansion (m.expansion call.arguments line.scope))).Holds kind := by
      apply holds.push
      intro l member
      exact expanded call m known rfl l (List.mem_reverse.1 member)
    have replayed : (r.pushReplay (.ofExpansion (m.expansion call.arguments line.scope))
        (m.expansion call.arguments line.scope)).Holds kind :=
      ⟨pushed.pending, pushed.captured, pushed.last⟩
    simpa using replayed

end

end Reader

namespace Preprocess

section

variable {kind : Line → Prop} {o : Options} {p next : Preprocess}

theorem Moves.holds (moves : Moves o p next) (kept : Line.Kept kind)
    (aligned : ∀ r ∈ p.readers, r.Aligned)
    (included : ∀ path bytes, o.files.read path = .ok bytes →
      ∀ l ∈ (Tokenizer.tokenize path (Text.decode bytes)).lines, kind l)
    (expanded : ∀ (call : Signature) (m : Macro) (line : Line), kind line →
      p.work.macros[Text.upper call.name]? = some m →
      p.event? = some (.invoked ⟨Text.upper call.name, m.count + 1, line.scope⟩) →
      ∀ l ∈ m.expansion call.arguments line.scope, kind l)
    (holds : ∀ r ∈ p.readers, r.Holds kind) : ∀ r ∈ next.readers, r.Holds kind := by
  cases moves with
  | ended stack _ _ _ _ _ left =>
    intro r member
    exact holds r (by simp [stack, ← left, member])
  | @read r taken line waiting readers stack took effect _ left =>
    obtain ⟨given, rest⟩ := (holds r (by simp [stack])).take (aligned r (by simp [stack])) took
    have inner := effect.holds included
      (fun call m known event => expanded call m _ (kept.used taken given) known event)
      (rest.showing kept given)
    intro r' member
    rw [left] at member
    cases List.mem_append.1 member with
    | inl new => exact inner r' new
    | inr old => exact holds r' (by simp [stack, old])

theorem Moves.invoking {i : Invocation} (moves : Moves o p next) (kept : Line.Kept kind)
    (aligned : ∀ r ∈ p.readers, r.Aligned) (holds : ∀ r ∈ p.readers, r.Holds kind)
    (event : p.event? = some (.invoked i)) : ∃ line, kind line ∧ i.outer = line.scope := by
  cases moves with
  | ended _ quiet _ _ _ _ _ =>
    rw [quiet] at event
    cases event
  | @read r taken line waiting readers stack took effect _ left =>
    obtain ⟨given, _⟩ := (holds r (by simp [stack])).take (aligned r (by simp [stack])) took
    rw [event] at effect
    obtain ⟨_, _, _, _, same, _⟩ := effect.invoked
    exact ⟨_, kept.used taken given, same⟩

end

end Preprocess

end WordAsm
