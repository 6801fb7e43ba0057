import Mathlib.Logic.Relation
import WordAsm.Proofs.DisassemblyLines

/-!
Code is what can be reached. The edges of control flow and the targets of transfers are stated
apart from the walk along them. An address is marked exactly if a path of edges leads to it from
address 0, and its label tells whether a call or only jumps lead there. A walk that visits the
addresses in some other order ends with the same marks and the same labels.
-/
namespace WordAsm

/-- The literal target of an instruction at an address. Distances are from the instruction after
it, and addresses wrap around. -/
inductive Decoded.Aims (address : Nat) : Decoded → Nat → Transfer → Prop
  | call {a : Argument} {v : UInt16} (literal : a.literal? = some v) :
      Aims address (.special .jsr a) v.toNat .call
  | set {b : Argument} {v : UInt16} (literal : b.literal? = some v) :
      Aims address (.basic .set .pc b) v.toNat .jump
  | forward {b : Argument} {v : UInt16} (literal : b.literal? = some v) :
      Aims address (.basic .add .pc b)
        ((address + (basic .add .pc b).size + v.toNat) % addressSpace) .jump
  | back {b : Argument} {v : UInt16} {t : Nat} (literal : b.literal? = some v)
      (bound : t < addressSpace)
      (distance : (t + v.toNat) % addressSpace =
        (address + (basic .sub .pc b).size) % addressSpace) :
      Aims address (.basic .sub .pc b) t .jump

theorem Decoded.aims_of_target {address t : Nat} {d : Decoded} {kind : Transfer}
    (target : d.target? address = some (t, kind)) : d.Aims address t kind := by
  unfold target? at target
  split at target
  · obtain ⟨v, literal, same⟩ := Option.map_eq_some_iff.1 target
    cases same
    exact .call literal
  · obtain ⟨v, literal, same⟩ := Option.map_eq_some_iff.1 target
    cases same
    exact .set literal
  · obtain ⟨v, literal, same⟩ := Option.map_eq_some_iff.1 target
    cases same
    exact .forward literal
  · obtain ⟨v, literal, same⟩ := Option.map_eq_some_iff.1 target
    cases same
    have bound := v.toNat_lt
    apply Aims.back literal
    · exact Nat.mod_lt _ (by decide)
    · simp only [addressSpace]
      omega
  · cases target

theorem Decoded.target_of_aims {address t : Nat} {d : Decoded} {kind : Transfer}
    (aims : d.Aims address t kind) : d.target? address = some (t, kind) := by
  cases aims with
  | call literal => simp [target?, literal]
  | set literal => simp [target?, literal]
  | forward literal => simp [target?, literal]
  | @back b v t literal bound distance =>
    have small := v.toNat_lt
    have place : (address + (basic .sub .pc b).size + addressSpace - v.toNat) % addressSpace =
        t := by
      simp only [addressSpace] at bound distance ⊢
      omega
    simp [target?, literal, place]

theorem Decoded.target_iff {address t : Nat} {d : Decoded} {kind : Transfer} :
    d.target? address = some (t, kind) ↔ d.Aims address t kind :=
  ⟨aims_of_target, target_of_aims⟩

namespace Flow

inductive Edge (image : Array Decoded) : Nat → Nat → Prop
  | next {a : Nat} {d : Decoded} (decoded : image[a]? = some d) (goesOn : d.isTerminal = false) :
      Edge image a (a + d.size)
  | skip {a : Nat} {d skipped : Decoded} (decoded : image[a]? = some d)
      (conditional : d.isConditional = true) (after : image[a + d.size]? = some skipped) :
      Edge image a (a + d.size + skipped.size)
  | transfer {a t : Nat} {d : Decoded} {kind : Transfer} (decoded : image[a]? = some d)
      (aims : d.Aims a t kind) (inside : t < image.size) : Edge image a t

def Reachable (image : Array Decoded) : Nat → Prop := Relation.ReflTransGen (Edge image) 0

def Targets (image : Array Decoded) (a t : Nat) (kind : Transfer) : Prop :=
  t < image.size ∧ ∃ d, image[a]? = some d ∧ d.Aims a t kind

section

variable {image : Array Decoded}

theorem target_iff {a t : Nat} {d : Decoded} {kind : Transfer} :
    target? image a d = some (t, kind) ↔ d.Aims a t kind ∧ t < image.size := by
  simp only [target?, Option.filter_eq_some_iff, Decoded.target_iff, decide_eq_true_eq]

theorem targets_iff {a t : Nat} {kind : Transfer} :
    Targets image a t kind ↔ image[a]?.bind (target? image a) = some (t, kind) := by
  constructor
  · rintro ⟨inside, d, decoded, aims⟩
    exact Option.bind_eq_some_iff.2 ⟨d, decoded, target_iff.2 ⟨aims, inside⟩⟩
  · intro found
    obtain ⟨d, decoded, target⟩ := Option.bind_eq_some_iff.1 found
    obtain ⟨aims, inside⟩ := target_iff.1 target
    exact ⟨inside, d, decoded, aims⟩

theorem Targets.unique {a t t' : Nat} {kind kind' : Transfer} (targets : Targets image a t kind)
    (targets' : Targets image a t' kind') : t' = t ∧ kind' = kind := by
  have found := targets_iff.1 targets
  rw [targets_iff.1 targets'] at found
  cases found
  exact ⟨rfl, rfl⟩

theorem edge_iff {a s : Nat} {d : Decoded} (decoded : image[a]? = some d) :
    Edge image a s ↔ s ∈ successors image a d := by
  constructor
  · intro edge
    cases edge with
    | next decoded' goesOn =>
      rw [decoded] at decoded'
      cases decoded'
      simp [successors, next?, goesOn]
    | skip decoded' conditional after =>
      rw [decoded] at decoded'
      cases decoded'
      simp [successors, skip?, conditional, after]
    | transfer decoded' aims inside =>
      rw [decoded] at decoded'
      cases decoded'
      exact (target_successor (target_iff.2 ⟨aims, inside⟩)).2
  · intro member
    simp only [successors, List.mem_append, Option.mem_toList, Option.map_eq_some_iff] at member
    rcases member with (next | skip) | ⟨⟨t, kind⟩, target, rfl⟩
    · unfold next? at next
      split at next
      · cases next
      · rename_i goesOn
        cases next
        exact .next decoded (Bool.not_eq_true _ ▸ goesOn)
    · unfold skip? at skip
      split at skip
      · rename_i conditional
        obtain ⟨skipped, after, rfl⟩ := Option.map_eq_some_iff.1 skip
        exact .skip decoded conditional after
      · cases skip
    · obtain ⟨aims, inside⟩ := target_iff.1 target
      exact .transfer decoded aims inside

theorem Edge.decoded {a s : Nat} (edge : Edge image a s) : ∃ d, image[a]? = some d := by
  cases edge with
  | next decoded => exact ⟨_, decoded⟩
  | skip decoded => exact ⟨_, decoded⟩
  | transfer decoded => exact ⟨_, decoded⟩

theorem Reachable.successor {a s : Nat} {d : Decoded} (reachable : Reachable image a)
    (decoded : image[a]? = some d) (successor : s ∈ successors image a d) : Reachable image s :=
  reachable.tail ((edge_iff decoded).2 successor)

theorem marked_of_reachable {marked : Array Bool} (closed : LeadsTo image marked [])
    (first : 0 < image.size → marked[0]? = some true) {a : Nat} (reachable : Reachable image a)
    (inside : a < image.size) : marked[a]? = some true := by
  induction reachable with
  | refl => exact first inside
  | @tail b c path edge ih =>
    obtain ⟨d, decoded⟩ := edge.decoded
    obtain ⟨bound, -⟩ := Array.getElem?_eq_some_iff.1 decoded
    rcases closed b d (ih bound) decoded c ((edge_iff decoded).1 edge) inside with here | none
    · exact here
    · cases none

theorem follow_reachable {budget : Nat} {marked : Array Bool} {todo : List Nat}
    (sound : ∀ a : Nat, marked[a]? = some true → Reachable image a)
    (pending : ∀ a ∈ todo, Reachable image a) :
    ∀ a : Nat, (follow image budget marked todo)[a]? = some true → Reachable image a := by
  fun_induction follow image budget marked todo with
  | case1 budget marked => exact sound
  | case2 budget marked a rest outside ih =>
    exact ih sound fun b member => pending b (List.mem_cons_of_mem a member)
  | case3 budget marked a rest d decoded already ih =>
    exact ih sound fun b member => pending b (List.mem_cons_of_mem a member)
  | case4 marked a rest d decoded fresh => exact sound
  | case5 marked a rest d decoded fresh budget ih =>
    have here : Reachable image a := pending a List.mem_cons_self
    apply ih
    · intro b mark
      by_cases same : b = a
      · rw [same]
        exact here
      · rw [Array.getElem?_setIfInBounds, if_neg (Ne.symm same)] at mark
        exact sound b mark
    · intro b member
      rcases List.mem_append.1 member with successor | later
      · exact here.successor decoded successor
      · exact pending b (List.mem_cons_of_mem a later)

theorem code_iff {a : Nat} (inside : a < image.size) :
    (code image)[a]? = some true ↔ Reachable image a := by
  constructor
  · apply follow_reachable
    · intro b mark
      rw [Array.getElem?_replicate] at mark
      split at mark <;> cases mark
    · intro b member
      rw [List.mem_singleton.1 member]
      exact .refl
  · intro reachable
    have finished := code_finished image
    exact marked_of_reachable finished.closed (finished.visits 0 List.mem_cons_self) reachable
      inside

theorem targets_inside {a t : Nat} {kind : Transfer} (targets : Targets image a t kind) :
    a < image.size := by
  obtain ⟨-, d, decoded, -⟩ := targets
  exact (Array.getElem?_eq_some_iff.1 decoded).1

end

/-! What labels say about the instructions that they were made from. -/

structure Explains (image : Array Decoded) (sources : Nat → Prop)
    (labels : Array (Option Transfer)) : Prop where
  size : labels.size = image.size
  call : ∀ t : Nat, labels[t]? = some (some .call) ↔ ∃ a, sources a ∧ Targets image a t .call
  jump : ∀ t : Nat, labels[t]? = some (some .jump) ↔
    (∃ a, sources a ∧ Targets image a t .jump) ∧ ¬ ∃ a, sources a ∧ Targets image a t .call

section

variable {image : Array Decoded} {sources : Nat → Prop} {labels : Array (Option Transfer)}

theorem exists_getElem {α : Type} {entries : Array α} {n i : Nat} (size : entries.size = n)
    (inside : i < n) : ∃ entry, entries[i]? = some entry :=
  ⟨_, Array.getElem?_eq_getElem (size ▸ inside)⟩

theorem explains_none (image : Array Decoded) :
    Explains image (fun _ => False) (Array.replicate image.size none) := by
  constructor
  · exact Array.size_replicate
  · intro t
    simp [Array.getElem?_replicate]
  · intro t
    simp [Array.getElem?_replicate]

theorem Explains.congr {sources' : Nat → Prop} (explains : Explains image sources labels)
    (same : ∀ a, a < image.size → (sources a ↔ sources' a)) : Explains image sources' labels := by
  have causes : ∀ t kind, (∃ a, sources a ∧ Targets image a t kind) ↔
      ∃ a, sources' a ∧ Targets image a t kind := by
    intro t kind
    constructor
    · rintro ⟨a, source, targets⟩
      exact ⟨a, (same a (targets_inside targets)).1 source, targets⟩
    · rintro ⟨a, source, targets⟩
      exact ⟨a, (same a (targets_inside targets)).2 source, targets⟩
  constructor
  · exact explains.size
  · intro t
    rw [explains.call, causes]
  · intro t
    rw [explains.jump, causes, causes]

theorem Explains.unique {labels' : Array (Option Transfer)}
    (explains : Explains image sources labels) (explains' : Explains image sources labels') :
    labels' = labels := by
  apply Array.ext_getElem?
  intro t
  by_cases inside : t < image.size
  · have call := (explains'.call t).trans (explains.call t).symm
    have jump := (explains'.jump t).trans (explains.jump t).symm
    obtain ⟨old, shown⟩ := exists_getElem explains.size inside
    obtain ⟨new, shown'⟩ := exists_getElem explains'.size inside
    rw [shown, shown'] at call jump ⊢
    rcases old with _ | _ | _ <;> rcases new with _ | _ | _ <;> simp at call jump ⊢
  · rw [Array.getElem?_eq_none (by rw [explains'.size]; omega),
      Array.getElem?_eq_none (by rw [explains.size]; omega)]

theorem Explains.without {a : Nat} (explains : Explains image sources labels)
    (none : ∀ t kind, ¬ Targets image a t kind) :
    Explains image (fun b => b = a ∨ sources b) labels := by
  have causes : ∀ t kind, (∃ b, (b = a ∨ sources b) ∧ Targets image b t kind) ↔
      ∃ b, sources b ∧ Targets image b t kind := by
    intro t kind
    constructor
    · rintro ⟨b, rfl | source, targets⟩
      · exact absurd targets (none t kind)
      · exact ⟨b, source, targets⟩
    · rintro ⟨b, source, targets⟩
      exact ⟨b, .inr source, targets⟩
  constructor
  · exact explains.size
  · intro t
    rw [explains.call, causes]
  · intro t
    rw [explains.jump, causes, causes]

theorem Explains.insert {a t : Nat} {kind : Transfer} (explains : Explains image sources labels)
    (targets : Targets image a t kind) :
    Explains image (fun b => b = a ∨ sources b)
      (labels.setIfInBounds t (some (strongest (labels.getD t none) kind))) := by
  have inside : t < labels.size := explains.size ▸ targets.1
  have causes : ∀ u why, (∃ b, (b = a ∨ sources b) ∧ Targets image b u why) ↔
      (u = t ∧ why = kind) ∨ ∃ b, sources b ∧ Targets image b u why := by
    intro u why
    constructor
    · rintro ⟨b, rfl | source, aimed⟩
      · exact .inl (targets.unique aimed)
      · exact .inr ⟨b, source, aimed⟩
    · rintro (⟨rfl, rfl⟩ | ⟨b, source, aimed⟩)
      · exact ⟨a, .inl rfl, targets⟩
      · exact ⟨b, .inr source, aimed⟩
  have old : labels[t]? = some (labels.getD t none) := by
    rw [Array.getD_eq_getD_getElem?, Array.getElem?_eq_getElem inside, Option.getD_some]
  have call := explains.call t
  have jump := explains.jump t
  rw [old] at call jump
  constructor
  · rw [Array.size_setIfInBounds]
    exact explains.size
  · intro u
    rw [causes, Array.getElem?_setIfInBounds]
    by_cases same : t = u
    · subst same
      rw [if_pos rfl, if_pos inside, ← call]
      cases kind <;> simp [strongest]
    · rw [if_neg same, explains.call]
      simp [Ne.symm same]
  · intro u
    rw [causes, causes, Array.getElem?_setIfInBounds]
    by_cases same : t = u
    · subst same
      rw [if_pos rfl, if_pos inside, ← call]
      cases kind <;> simp [strongest]
    · rw [if_neg same, explains.jump]
      simp [Ne.symm same]

theorem Explains.label {marked : Array Bool} {a : Nat} (explains : Explains image sources labels)
    (mark : marked.getD a false = true) :
    Explains image (fun b => b = a ∨ sources b) (label image marked labels a) := by
  unfold Flow.label
  rw [if_pos mark]
  split
  · rename_i t kind found
    exact explains.insert (targets_iff.2 found)
  · rename_i none
    apply explains.without
    intro t kind targets
    rw [targets_iff.1 targets] at none
    cases none

theorem explains_foldl {marked : Array Bool} (explains : Explains image sources labels)
    (addresses : List Nat) :
    Explains image (fun a => (a ∈ addresses ∧ marked.getD a false = true) ∨ sources a)
      (addresses.foldl (label image marked) labels) := by
  induction addresses generalizing sources labels with
  | nil =>
    apply explains.congr
    intro a inside
    simp
  | cons first addresses ih =>
    rw [List.foldl_cons]
    by_cases mark : marked.getD first false = true
    · apply (ih (explains.label mark)).congr
      intro a inside
      by_cases same : a = first
      · simp [same, mark]
      · simp [same]
    · have skipped : label image marked labels first = labels := by
        unfold Flow.label
        rw [if_neg mark]
      rw [skipped]
      apply (ih explains).congr
      intro a inside
      by_cases same : a = first
      · simp [same, mark]
      · simp [same]

theorem explains_labels {marked : Array Bool} (size : marked.size = image.size) :
    Explains image (fun a => marked[a]? = some true) (Flow.labels image marked) := by
  apply (explains_foldl (explains_none image) (List.range image.size)).congr
  intro a inside
  rw [Array.getD_eq_getD_getElem?, Array.getElem?_eq_getElem (size ▸ inside)]
  simp [inside]

end

def LeadsBy (image : Array Decoded) (kind : Transfer) (t : Nat) : Prop :=
  ∃ a, Reachable image a ∧ Targets image a t kind

theorem explains_code (image : Array Decoded) :
    Explains image (Reachable image) (labels image (code image)) := by
  apply (explains_labels (size_code image)).congr
  intro a inside
  exact code_iff inside

/-! Walks in any order. -/

structure Tour where
  marked : Array Bool
  labels : Array (Option Transfer)
  todo : List Nat

namespace Tour

def start (image : Array Decoded) : Tour :=
  ⟨Array.replicate image.size false, Array.replicate image.size none, [0]⟩

def visit (image : Array Decoded) (tour : Tour) (a : Nat) (todo : List Nat) : Tour :=
  let marked := tour.marked.setIfInBounds a true
  ⟨marked, label image marked tour.labels a, todo⟩

/-- A visit takes any of the addresses that are left. What it adds may leave out addresses that
are outside of the image or have been seen before. -/
inductive Visit (image : Array Decoded) : Tour → Tour → Prop
  | known {tour : Tour} {a : Nat} {rest : List Nat} (taken : tour.todo.Perm (a :: rest))
      (done : image.size ≤ a ∨ tour.marked[a]? = some true) :
      Visit image tour { tour with todo := rest }
  | fresh {tour : Tour} {a : Nat} {d : Decoded} {rest todo : List Nat}
      (taken : tour.todo.Perm (a :: rest)) (decoded : image[a]? = some d)
      (unmarked : tour.marked[a]? = some false) (kept : ∀ s ∈ rest, s ∈ todo)
      (added : ∀ s ∈ todo, s ∈ rest ∨ s ∈ successors image a d)
      (complete : ∀ s ∈ successors image a d, s ∈ todo ∨ image.size ≤ s ∨ s = a ∨
        tour.marked[s]? = some true) :
      Visit image tour (tour.visit image a todo)

def Walks (image : Array Decoded) : Tour → Prop :=
  Relation.ReflTransGen (Visit image) (start image)

/-- What every walk keeps to. -/
structure Sound (image : Array Decoded) (tour : Tour) : Prop where
  size : tour.marked.size = image.size
  first : 0 < image.size → tour.marked[0]? = some true ∨ 0 ∈ tour.todo
  marked : ∀ a : Nat, tour.marked[a]? = some true → Reachable image a
  todo : ∀ a ∈ tour.todo, Reachable image a
  leads : LeadsTo image tour.marked tour.todo
  labels : Explains image (fun a => tour.marked[a]? = some true) tour.labels

section

variable {image : Array Decoded} {tour next : Tour}

theorem sound_start (image : Array Decoded) : (start image).Sound image := by
  have unmarked : ∀ a : Nat, (start image).marked[a]? ≠ some true := by
    intro a mark
    rw [start, Array.getElem?_replicate] at mark
    split at mark <;> cases mark
  constructor
  · exact Array.size_replicate
  · intro some
    exact .inr List.mem_cons_self
  · intro a mark
    exact absurd mark (unmarked a)
  · intro a member
    rw [List.mem_singleton.1 member]
    exact .refl
  · intro a d mark
    exact absurd mark (unmarked a)
  · apply (explains_none image).congr
    intro a inside
    simp [unmarked a]

theorem Sound.known {a : Nat} {rest : List Nat} (sound : tour.Sound image)
    (taken : tour.todo.Perm (a :: rest)) (done : image.size ≤ a ∨ tour.marked[a]? = some true) :
    Sound image { tour with todo := rest } := by
  have moved : ∀ s, s < image.size → tour.marked[s]? = some true ∨ s ∈ tour.todo →
      tour.marked[s]? = some true ∨ s ∈ rest := by
    intro s inside here
    rcases here with mark | member
    · exact .inl mark
    · rcases List.mem_cons.1 (taken.mem_iff.1 member) with rfl | later
      · rcases done with outside | mark
        · omega
        · exact .inl mark
      · exact .inr later
  constructor
  · exact sound.size
  · intro some
    exact moved 0 some (sound.first some)
  · exact sound.marked
  · intro b member
    exact sound.todo b (taken.mem_iff.2 (List.mem_cons_of_mem a member))
  · intro b d mark decoded s successor inside
    exact moved s inside (sound.leads b d mark decoded s successor inside)
  · exact sound.labels

theorem Sound.fresh {a : Nat} {d : Decoded} {rest todo : List Nat} (sound : tour.Sound image)
    (taken : tour.todo.Perm (a :: rest)) (decoded : image[a]? = some d)
    (unmarked : tour.marked[a]? = some false) (kept : ∀ s ∈ rest, s ∈ todo)
    (added : ∀ s ∈ todo, s ∈ rest ∨ s ∈ successors image a d)
    (complete : ∀ s ∈ successors image a d, s ∈ todo ∨ image.size ≤ s ∨ s = a ∨
      tour.marked[s]? = some true) :
    Sound image (tour.visit image a todo) := by
  obtain ⟨bound, -⟩ := Array.getElem?_eq_some_iff.1 unmarked
  have mark := getElem_mark bound
  have here : Reachable image a := sound.todo a (taken.mem_iff.2 List.mem_cons_self)
  have moved : ∀ s, tour.marked[s]? = some true ∨ s ∈ tour.todo →
      (tour.marked.setIfInBounds a true)[s]? = some true ∨ s ∈ todo := by
    intro s before
    rcases before with already | member
    · exact .inl ((mark s).2 (.inr already))
    · rcases List.mem_cons.1 (taken.mem_iff.1 member) with rfl | later
      · exact .inl ((mark s).2 (.inl rfl))
      · exact .inr (kept s later)
  constructor
  · exact Array.size_setIfInBounds.trans sound.size
  · intro some
    exact moved 0 (sound.first some)
  · intro b marked
    rcases (mark b).1 marked with rfl | before
    · exact here
    · exact sound.marked b before
  · intro b member
    rcases added b member with later | successor
    · exact sound.todo b (taken.mem_iff.2 (List.mem_cons_of_mem a later))
    · exact here.successor decoded successor
  · intro b d' marked decoded' s successor inside
    rcases (mark b).1 marked with rfl | before
    · rw [decoded] at decoded'
      cases decoded'
      rcases complete s successor with listed | outside | rfl | already
      · exact .inr listed
      · omega
      · exact .inl ((mark s).2 (.inl rfl))
      · exact .inl ((mark s).2 (.inr already))
    · exact moved s (sound.leads b d' before decoded' s successor inside)
  · have marked : (tour.marked.setIfInBounds a true).getD a false = true := by
      rw [Array.getD_eq_getD_getElem?, (mark a).2 (.inl rfl), Option.getD_some]
    apply (sound.labels.label marked).congr
    intro b inside
    exact (mark b).symm

theorem Sound.visit (sound : tour.Sound image) (visit : Visit image tour next) :
    next.Sound image := by
  cases visit with
  | known taken done => exact sound.known taken done
  | fresh taken decoded unmarked kept added complete =>
    exact sound.fresh taken decoded unmarked kept added complete

theorem sound_of_walks (walks : Walks image tour) : tour.Sound image := by
  induction walks with
  | refl => exact sound_start image
  | tail _ visit ih => exact ih.visit visit

theorem finished (walks : Walks image tour) (done : tour.todo = []) :
    tour.marked = code image ∧ tour.labels = Flow.labels image (code image) := by
  have sound := sound_of_walks walks
  have closed := sound.leads
  have first := sound.first
  rw [done] at closed first
  have same : ∀ a, a < image.size →
      (tour.marked[a]? = some true ↔ (code image)[a]? = some true) := by
    intro a inside
    rw [code_iff inside]
    constructor
    · exact sound.marked a
    · intro reachable
      apply marked_of_reachable closed ?_ reachable inside
      intro some
      rcases first some with marked | none
      · exact marked
      · cases none
  constructor
  · apply Array.ext_getElem?
    intro a
    by_cases inside : a < image.size
    · have marks := same a inside
      obtain ⟨found, shown⟩ := exists_getElem sound.size inside
      obtain ⟨real, shown'⟩ := exists_getElem (size_code image) inside
      rw [shown, shown'] at marks ⊢
      cases found <;> cases real <;> simp at marks ⊢
    · rw [Array.getElem?_eq_none (by rw [sound.size]; omega),
        Array.getElem?_eq_none (by rw [size_code]; omega)]
  · exact (explains_labels (size_code image)).unique (sound.labels.congr same)

end

end Tour

end Flow

namespace Disassembly

namespace Plan

theorem visible_of_chunk {labels shown : Array (Option Transfer)} {chunks : List Chunk} {t : Nat}
    (size : shown.size = labels.size) (inside : t < labels.size)
    (begins : shown[t]? = some (labels.getD t none) ∨ ∃ c ∈ chunks, c.address = t) :
    (chunks.foldl (fun shown c => shown.setIfInBounds c.address (labels.getD c.address none))
      shown)[t]? = some (labels.getD t none) := by
  induction chunks generalizing shown with
  | nil =>
    rcases begins with already | ⟨c, member, -⟩
    · exact already
    · cases member
  | cons c chunks ih =>
    rw [List.foldl_cons]
    apply ih
    · rw [Array.size_setIfInBounds, size]
    · rw [Array.getElem?_setIfInBounds]
      by_cases same : c.address = t
      · left
        rw [if_pos same, same, if_pos (size ▸ inside)]
      · rw [if_neg same]
        rcases begins with already | ⟨other, member, place⟩
        · exact .inl already
        · rcases List.mem_cons.1 member with rfl | later
          · exact absurd place same
          · exact .inr ⟨other, later, place⟩

theorem shown_iff {words : List UInt16} {t : Nat} {kind : Transfer} :
    (ofWords words).labels.getD t none = some kind ↔
      (∃ c ∈ (ofWords words).chunks, c.address = t) ∧
        (Flow.labels (decodeAll words).toArray (Flow.code (decodeAll words).toArray))[t]? =
          some (some kind) := by
  constructor
  · intro shown
    rcases getElem_visible (getElem_of_shown shown) with none | ⟨labelled, begins⟩
    · rw [Array.getElem?_replicate] at none
      split at none <;> cases none
    · exact ⟨begins, getElem_of_shown labelled⟩
  · rintro ⟨begins, labelled⟩
    obtain ⟨inside, -⟩ := Array.getElem?_eq_some_iff.1 labelled
    have shown : (ofWords words).labels[t]? = _ :=
      visible_of_chunk Array.size_replicate inside (.inr begins)
    rw [Array.getD_eq_getD_getElem?, labelled, Option.getD_some] at shown
    rw [Array.getD_eq_getD_getElem?, shown, Option.getD_some]

theorem label_iff {p : Plan} {t : Nat} {kind : Transfer} :
    p.label? t = some (labelName t kind) ↔ p.labels.getD t none = some kind := by
  rw [label?, Option.map_eq_some_iff]
  constructor
  · rintro ⟨shown, label, same⟩
    rw [label, (labelName_injective same).2]
  · intro label
    exact ⟨kind, label, rfl⟩

end Plan

open WordAsm.Flow

/-- The trace marks the code that can be reached and labels the targets in it, a call before a
jump, whatever the order in which addresses are visited. Of the labels those inside of another
instruction are not shown. -/
theorem trace_is_reachability (words : List UInt16) :
    let image := (decodeAll words).toArray
    (∀ a, a < words.length → ((code image)[a]? = some true ↔ Reachable image a)) ∧
    (∀ t : Nat, (labels image (code image))[t]? = some (some .call) ↔ LeadsBy image .call t) ∧
    (∀ t : Nat, (labels image (code image))[t]? = some (some .jump) ↔
      LeadsBy image .jump t ∧ ¬ LeadsBy image .call t) ∧
    (∀ t, (∃ c ∈ (Plan.ofWords words).chunks, c.address = t) →
      ((Plan.ofWords words).label? t = some ("sub_" ++ Text.hex 4 t) ↔ LeadsBy image .call t) ∧
      ((Plan.ofWords words).label? t = some ("loc_" ++ Text.hex 4 t) ↔
        LeadsBy image .jump t ∧ ¬ LeadsBy image .call t)) ∧
    ∀ tour, Tour.Walks image tour → tour.todo = [] →
      tour.marked = code image ∧ tour.labels = labels image (code image) := by
  intro image
  have explains := explains_code image
  refine ⟨?_, explains.call, explains.jump, ?_, ?_⟩
  · intro a inside
    apply code_iff
    rw [List.size_toArray, length_decodeAll]
    exact inside
  · intro t begins
    constructor
    · exact Plan.label_iff.trans (Plan.shown_iff.trans
        ((and_iff_right begins).trans (explains.call t)))
    · exact Plan.label_iff.trans (Plan.shown_iff.trans
        ((and_iff_right begins).trans (explains.jump t)))
  · intro tour walks done
    exact Tour.finished walks done

/-- A condition, a call, a jump back to the call, two words of data, and a jump to itself, which is
what the call calls. -/
def crossing : List UInt16 := [0x800C, 0x9410, 0x89C3, 0x41, 0x42, 0x95C1]

def backwards : Tour :=
  let image := (decodeAll crossing).toArray
  ((((Tour.start image).visit image 0 [1, 2]).visit image 2 [1]).visit image 1 [5]).visit image 5 []

theorem walks_backwards : Tour.Walks (decodeAll crossing).toArray backwards := by
  let image := (decodeAll crossing).toArray
  let condition := (Tour.start image).visit image 0 [1, 2]
  let jump := condition.visit image 2 [1]
  let call := jump.visit image 1 [5]
  have first : Tour.Visit image (Tour.start image) condition :=
    .fresh (List.Perm.refl [0]) rfl rfl (by decide) (by decide) (by decide)
  have second : Tour.Visit image condition jump :=
    .fresh (List.Perm.swap 2 1 []) rfl rfl (by decide) (by decide) (by decide)
  have third : Tour.Visit image jump call :=
    .fresh (List.Perm.refl [1]) rfl rfl (by decide) (by decide) (by decide)
  have last : Tour.Visit image call backwards :=
    .fresh (List.Perm.refl [5]) rfl rfl (by decide) (by decide) (by decide)
  exact Relation.ReflTransGen.refl.tail first |>.tail second |>.tail third |>.tail last

theorem trace_is_reachability_backwards :
    code (decodeAll crossing).toArray = #[true, true, true, false, false, true] ∧
      Reachable (decodeAll crossing).toArray 5 ∧ ¬ Reachable (decodeAll crossing).toArray 3 ∧
      LeadsBy (decodeAll crossing).toArray .call 5 ∧
      ¬ LeadsBy (decodeAll crossing).toArray .call 1 ∧
      backwards.todo = [] ∧ backwards.labels =
        labels (decodeAll crossing).toArray (code (decodeAll crossing).toArray) := by
  have marks : code (decodeAll crossing).toArray = #[true, true, true, false, false, true] := by
    decide +kernel
  have targets : labels (decodeAll crossing).toArray (code (decodeAll crossing).toArray) =
      #[none, some .jump, none, none, none, some .call] := by decide +kernel
  obtain ⟨reached, called, jumped, -, walked⟩ := trace_is_reachability crossing
  refine ⟨marks, ?_, ?_, ?_, ?_, rfl, (walked backwards walks_backwards rfl).2⟩
  · exact (reached 5 (by decide)).1 (by rw [marks]; rfl)
  · intro reachable
    have mark := (reached 3 (by decide)).2 reachable
    rw [marks] at mark
    cases mark
  · exact (called 5).1 (by rw [targets]; rfl)
  · exact ((jumped 1).1 (by rw [targets]; rfl)).2

end Disassembly

end WordAsm
