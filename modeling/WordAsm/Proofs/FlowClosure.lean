import WordAsm.Image.Decode

/-!
The walk along control flow. Each address is marked at most once, so the budget of the walk
suffices, and what is marked in the end leads to marked addresses only. Labels stand at targets of
marked instructions, so they are marked as well.
-/
namespace WordAsm.Flow

variable {image : Array Decoded}

def LeadsTo (image : Array Decoded) (marked : Array Bool) (todo : List Nat) : Prop :=
  ∀ (a : Nat) d, marked[a]? = some true → image[a]? = some d →
    ∀ s ∈ successors image a d, s < image.size → marked[s]? = some true ∨ s ∈ todo

/-- The state of a walk: what is marked, what is still to be visited, and how many addresses may
be marked. -/
structure Walk (image : Array Decoded) (budget : Nat) (marked : Array Bool) (todo : List Nat) :
    Prop where
  size : marked.size = image.size
  enough : marked.count false ≤ budget
  leads : LeadsTo image marked todo

/-- What a walk ends with. -/
structure Finished (image : Array Decoded) (marked : Array Bool) (todo : List Nat)
    (final : Array Bool) : Prop where
  size : final.size = image.size
  keeps : ∀ a : Nat, marked[a]? = some true → final[a]? = some true
  visits : ∀ a ∈ todo, a < image.size → final[a]? = some true
  closed : LeadsTo image final []

theorem getElem_of_getD {marked : Array Bool} {a : Nat} (inside : a < marked.size) :
    marked[a]? = some (marked.getD a true) := by
  rw [Array.getD_eq_getD_getElem?, Array.getElem?_eq_getElem inside, Option.getD_some]

theorem Walk.tail {budget : Nat} {marked : Array Bool} {a : Nat} {rest : List Nat}
    (walk : Walk image budget marked (a :: rest))
    (done : a < image.size → marked[a]? = some true) : Walk image budget marked rest := by
  refine ⟨walk.size, walk.enough, ?_⟩
  intro b d here decoded s successor inside
  rcases walk.leads b d here decoded s successor inside with already | listed
  · exact .inl already
  · rcases List.mem_cons.1 listed with rfl | later
    · exact .inl (done inside)
    · exact .inr later

theorem Finished.cons {marked final : Array Bool} {a : Nat} {rest : List Nat}
    (finished : Finished image marked rest final)
    (done : a < image.size → marked[a]? = some true) :
    Finished image marked (a :: rest) final := by
  refine ⟨finished.size, finished.keeps, ?_, finished.closed⟩
  intro b listed inside
  rcases List.mem_cons.1 listed with rfl | later
  · exact finished.keeps b (done inside)
  · exact finished.visits b later inside

theorem getElem_mark {marked : Array Bool} {a : Nat} (inside : a < marked.size) (b : Nat) :
    (marked.setIfInBounds a true)[b]? = some true ↔ b = a ∨ marked[b]? = some true := by
  rw [Array.getElem?_setIfInBounds]
  by_cases same : a = b
  · simp [← same, inside]
  · simp [same, Ne.symm same]

theorem Walk.visit {budget : Nat} {marked : Array Bool} {a : Nat} {d : Decoded} {rest : List Nat}
    (walk : Walk image (budget + 1) marked (a :: rest)) (decoded : image[a]? = some d)
    (fresh : marked[a]? = some false) :
    Walk image budget (marked.setIfInBounds a true) (successors image a d ++ rest) := by
  obtain ⟨inside, value⟩ := Array.getElem?_eq_some_iff.1 fresh
  refine ⟨?_, ?_, ?_⟩
  · rw [Array.size_setIfInBounds, walk.size]
  · have enough := walk.enough
    have counted := Array.count_set (a := true) (b := false) inside
    rw [Array.setIfInBounds_def, dif_pos inside, counted]
    simp [value]
    omega
  · intro b d' here decoded' s successor bound
    rw [getElem_mark inside]
    rcases (getElem_mark inside b).1 here with rfl | before
    · rw [decoded] at decoded'
      cases decoded'
      exact .inr (List.mem_append_left _ successor)
    · rcases walk.leads b d' before decoded' s successor bound with already | listed
      · exact .inl (.inr already)
      · rcases List.mem_cons.1 listed with rfl | later
        · exact .inl (.inl rfl)
        · exact .inr (List.mem_append_right _ later)

theorem Finished.visit {marked final : Array Bool} {a : Nat} {todo rest : List Nat}
    (finished : Finished image (marked.setIfInBounds a true) (todo ++ rest) final)
    (inside : a < marked.size) : Finished image marked (a :: rest) final := by
  have keeps : ∀ b : Nat, marked[b]? = some true → final[b]? = some true := by
    intro b before
    exact finished.keeps b ((getElem_mark inside b).2 (.inr before))
  refine ⟨finished.size, keeps, ?_, finished.closed⟩
  intro b listed bound
  rcases List.mem_cons.1 listed with rfl | later
  · exact finished.keeps b ((getElem_mark inside b).2 (.inl rfl))
  · exact finished.visits b (List.mem_append_right _ later) bound

theorem follow_finished {budget : Nat} {marked : Array Bool} {todo : List Nat}
    (walk : Walk image budget marked todo) :
    Finished image marked todo (follow image budget marked todo) := by
  fun_induction follow image budget marked todo with
  | case1 budget marked => exact ⟨walk.size, fun a here => here, by simp, walk.leads⟩
  | case2 budget marked a rest outside ih =>
    have done : a < image.size → marked[a]? = some true := by
      intro inside
      rw [Array.getElem?_eq_getElem inside] at outside
      cases outside
    exact (ih (walk.tail done)).cons done
  | case3 budget marked a rest d decoded already ih =>
    have done : a < image.size → marked[a]? = some true := by
      intro inside
      rw [getElem_of_getD (walk.size ▸ inside), already]
    exact (ih (walk.tail done)).cons done
  | case4 marked a rest d decoded fresh =>
    -- all addresses are marked once nothing is left of the budget
    obtain ⟨inside, -⟩ := Array.getElem?_eq_some_iff.1 decoded
    have unmarked := getElem_of_getD (walk.size ▸ inside)
    rw [Bool.not_eq_true] at fresh
    rw [fresh] at unmarked
    have none : marked.count false = 0 := Nat.le_zero.1 walk.enough
    exact absurd (Array.mem_of_getElem? unmarked) (Array.count_eq_zero.1 none)
  | case5 marked a rest d decoded fresh budget ih =>
    obtain ⟨inside, -⟩ := Array.getElem?_eq_some_iff.1 decoded
    have unmarked := getElem_of_getD (walk.size ▸ inside)
    rw [Bool.not_eq_true] at fresh
    rw [fresh] at unmarked
    exact (ih (walk.visit decoded unmarked)).visit (walk.size ▸ inside)

theorem code_finished (image : Array Decoded) :
    Finished image (Array.replicate image.size false) [0] (code image) := by
  apply follow_finished
  refine ⟨Array.size_replicate, ?_, ?_⟩
  · rw [Array.count_replicate]
    simp
  · intro a d here
    rw [Array.getElem?_replicate] at here
    split at here <;> cases here

theorem size_code (image : Array Decoded) : (code image).size = image.size :=
  (code_finished image).size

theorem code_successor {a s : Nat} {d : Decoded} (here : (code image)[a]? = some true)
    (decoded : image[a]? = some d) (successor : s ∈ successors image a d)
    (inside : s < image.size) : (code image)[s]? = some true := by
  rcases (code_finished image).closed a d here decoded s successor inside with marked | none
  · exact marked
  · cases none

/-! Labels. -/

def AreTargets (image : Array Decoded) (marked : Array Bool) (labels : Array (Option Transfer)) :
    Prop :=
  ∀ (t : Nat) kind, labels[t]? = some (some kind) →
    ∃ (a : Nat) (d : Decoded) (why : Transfer), marked[a]? = some true ∧ image[a]? = some d ∧
      target? image a d = some (t, why)

theorem areTargets_label {marked : Array Bool} {labels : Array (Option Transfer)}
    (targets : AreTargets image marked labels) (a : Nat) :
    AreTargets image marked (label image marked labels a) := by
  unfold label
  split
  · rename_i code
    have here : marked[a]? = some true := by
      rw [Array.getD_eq_getD_getElem?] at code
      cases found : marked[a]? with
      | none => simp [found] at code
      | some m => simpa [found] using code
    split
    · rename_i t why found
      obtain ⟨d, decoded, target⟩ := Option.bind_eq_some_iff.1 found
      intro u kind labelled
      rw [Array.getElem?_setIfInBounds] at labelled
      split at labelled
      · rename_i same
        exact ⟨a, d, why, here, decoded, same ▸ target⟩
      · exact targets u kind labelled
    · exact targets
  · exact targets

theorem areTargets_labels (image : Array Decoded) (marked : Array Bool) :
    AreTargets image marked (labels image marked) := by
  unfold labels
  have empty : AreTargets image marked (Array.replicate image.size none) := by
    intro t kind labelled
    rw [Array.getElem?_replicate] at labelled
    split at labelled <;> cases labelled
  generalize Array.replicate image.size none = start at empty
  generalize List.range image.size = addresses
  induction addresses generalizing start with
  | nil => exact empty
  | cons a addresses ih => exact ih _ (areTargets_label empty a)

theorem target_successor {a t : Nat} {d : Decoded} {why : Transfer}
    (target : target? image a d = some (t, why)) :
    t < image.size ∧ t ∈ successors image a d := by
  obtain ⟨-, inside⟩ := Option.filter_eq_some_iff.1 target
  refine ⟨by simpa using inside, ?_⟩
  simp [successors, target]

theorem code_labelled {t : Nat} {kind : Transfer}
    (labelled : (labels image (code image))[t]? = some (some kind)) :
    (code image)[t]? = some true := by
  obtain ⟨a, d, why, here, decoded, target⟩ := areTargets_labels image _ t kind labelled
  obtain ⟨inside, successor⟩ := target_successor target
  exact code_successor here decoded successor inside

end WordAsm.Flow
