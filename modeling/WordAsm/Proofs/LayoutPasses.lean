import WordAsm.Proofs.LayoutFixedPoint

/-!
What a pass does to each statement. The statement with index `i` sees the new lengths of the
statements before it and the old ones from itself on. In a provisional pass positions are known up
to the statement, in a finalizing pass all of them are.
-/
namespace WordAsm.Layout

/-- The slots when the statement with that index is emitted, in a pass that leaves `slots'`. -/
def between (slots slots' : List Slot) (i : Nat) : List Slot := slots'.take i ++ slots.drop i

def emission (optimize : Bool) (symbols : Symbols) (finalize : Bool) (slots slots' : List Slot)
    (i : Nat) (slot : Slot) : Emission :=
  slot.statement.emit optimize ⟨symbols, position (between slots slots' i), finalize⟩
    (total i slots') (slot.words.map List.length)

/-- The pass from `slots` to `slots'` gives each statement words. -/
structure Passes (optimize : Bool) (symbols : Symbols) (finalize : Bool)
    (slots slots' : List Slot) : Prop where
  length : slots'.length = slots.length
  emitted : ∀ {i : Nat} {slot : Slot}, slots[i]? = some slot → ∃ words,
    (emission optimize symbols finalize slots slots' i slot).outcome = .ok words ∧
    slots'[i]? = some ⟨(emission optimize symbols finalize slots slots' i slot).statement,
      some words⟩

section

variable {optimize : Bool} {symbols : Symbols} {finalize : Bool}

theorem position_cons_done (slot : Slot) (done rest : List Slot) :
    position ((slot :: done).reverse ++ rest) = position (done.reverse ++ (slot :: rest)) := by
  simp

theorem emitted_of_passFrom {done rest : List Slot} {pos : Nat} {changed changed' : Bool}
    (passed : (passFrom optimize symbols finalize done pos changed rest).outcome = .ok changed') :
    ∃ new : List Slot,
      (passFrom optimize symbols finalize done pos changed rest).slots = done.reverse ++ new ∧
      new.length = rest.length ∧
      (new.map Slot.words = rest.map Slot.words → changed' = changed) ∧
      ∀ {i : Nat} {slot : Slot}, rest[i]? = some slot → ∃ (e : Emission) (words : List UInt16),
        e = slot.statement.emit optimize
          ⟨symbols, position (done.reverse ++ between rest new i), finalize⟩
          ((pos + total i new : Nat) : Int) (slot.words.map List.length) ∧
        e.outcome = .ok words ∧ new[i]? = some ⟨e.statement, some words⟩ := by
  induction rest generalizing done pos changed with
  | nil =>
    cases passed
    exact ⟨[], by simp [passFrom], rfl, fun _ => rfl, by simp⟩
  | cons slot rest ih =>
    have here : positionAmong done (slot :: rest) = position (done.reverse ++ slot :: rest) :=
      funext (positionAmong_eq done (slot :: rest))
    simp only [passFrom, here] at passed ⊢
    generalize given : slot.statement.emit optimize
      ⟨symbols, position (done.reverse ++ slot :: rest), finalize⟩ pos
      (slot.words.map List.length) = e at passed ⊢
    split at passed
    · cases passed
    · rename_i words emitted
      obtain ⟨new, slots, length, same, later⟩ := ih passed
      refine ⟨⟨e.statement, some words⟩ :: new, ?_, by simp [length], ?_, ?_⟩
      · rw [slots]
        simp
      · intro equal
        simp only [List.map_cons, List.cons.injEq] at equal
        rw [same equal.2, ← equal.1]
        simp
      · intro i slot' found
        cases i with
        | zero =>
          cases found
          refine ⟨e, words, ?_, emitted, rfl⟩
          simpa [between, total] using given.symm
        | succ i =>
          obtain ⟨e', words', given, ok, left⟩ := later found
          refine ⟨e', words', ?_, ok, left⟩
          rw [given, position_cons_done]
          simp only [between, List.take_succ_cons, List.drop_succ_cons, List.cons_append, total,
            Slot.size, Option.map_some, Option.getD_some, Nat.add_assoc]

theorem passes_of_pass {slots : List Slot} {changed : Bool}
    (passed : (pass optimize symbols finalize slots).outcome = .ok changed) :
    Passes optimize symbols finalize slots (pass optimize symbols finalize slots).slots ∧
    ((pass optimize symbols finalize slots).slots.map Slot.words = slots.map Slot.words →
      changed = false) := by
  obtain ⟨new, left, length, same, later⟩ := emitted_of_passFrom passed
  rw [pass, left]
  simp only [List.reverse_nil, List.nil_append, Nat.zero_add] at later ⊢
  refine ⟨⟨length, ?_⟩, same⟩
  intro i slot found
  obtain ⟨e, words, given, ok, kept⟩ := later found
  refine ⟨words, ?_, ?_⟩
  · rw [emission, ← given]
    exact ok
  · rw [emission, ← given]
    exact kept

theorem failed_of_passFrom {done rest : List Slot} {pos : Nat} {changed : Bool}
    {failure : Failure}
    (failed : (passFrom optimize symbols finalize done pos changed rest).outcome =
      .error failure) :
    ∃ (new : List Slot) (i : Nat) (slot : Slot), rest[i]? = some slot ∧ new.length = i ∧
      (∀ s ∈ new, s.words.isSome = true) ∧
      failure.location = some (.ofLine slot.statement.line) ∧
      (slot.statement.emit optimize
          ⟨symbols, position (done.reverse ++ between rest new i), finalize⟩
          ((pos + total i new : Nat) : Int) (slot.words.map List.length)).outcome =
        .error failure.fault := by
  induction rest generalizing done pos changed with
  | nil => cases failed
  | cons slot rest ih =>
    have here : positionAmong done (slot :: rest) = position (done.reverse ++ slot :: rest) :=
      funext (positionAmong_eq done (slot :: rest))
    simp only [passFrom, here] at failed
    generalize given : slot.statement.emit optimize
      ⟨symbols, position (done.reverse ++ slot :: rest), finalize⟩ pos
      (slot.words.map List.length) = e at failed
    split at failed
    · rename_i fault emitted
      cases failed
      refine ⟨[], 0, slot, rfl, rfl, by simp, rfl, ?_⟩
      rw [← given] at emitted
      simpa [between, total, Failure.locate] using emitted
    · rename_i words emitted
      obtain ⟨new, i, slot', found, length, known, located, error⟩ := ih failed
      refine ⟨⟨e.statement, some words⟩ :: new, i + 1, slot', found, by simp [length], ?_, located,
        ?_⟩
      · intro s member
        rcases List.mem_cons.1 member with rfl | member
        · rfl
        · exact known s member
      · rw [position_cons_done] at error
        simpa only [between, List.take_succ_cons, List.drop_succ_cons, List.cons_append, total,
          Slot.size, Option.map_some, Option.getD_some, Nat.add_assoc] using error

theorem failed_of_pass {slots : List Slot} {failure : Failure}
    (failed : (pass optimize symbols finalize slots).outcome = .error failure) :
    ∃ (new : List Slot) (i : Nat) (slot : Slot), slots[i]? = some slot ∧ new.length = i ∧
      (∀ s ∈ new, s.words.isSome = true) ∧
      failure.location = some (.ofLine slot.statement.line) ∧
      (emission optimize symbols finalize slots new i slot).outcome = .error failure.fault := by
  obtain ⟨new, i, slot, found, length, known, located, error⟩ := failed_of_passFrom failed
  exact ⟨new, i, slot, found, length, known, located, by simpa [emission] using error⟩

end

/-! Positions between the slots of two passes. -/

section

variable {slots slots' : List Slot}

theorem known_of_passes {optimize : Bool} {symbols : Symbols} {finalize : Bool}
    (passes : Passes optimize symbols finalize slots slots') :
    ∀ slot ∈ slots', slot.words.isSome = true := by
  intro slot member
  obtain ⟨i, found⟩ := List.getElem?_of_mem member
  obtain ⟨bound, _⟩ := List.getElem?_eq_some_iff.1 found
  rw [passes.length] at bound
  obtain ⟨words, _, left⟩ := passes.emitted (List.getElem?_eq_getElem bound)
  rw [found] at left
  cases left
  rfl

theorem total_of_sizes (same : slots.map Slot.size = slots'.map Slot.size) (n : Nat) :
    total n slots = total n slots' := by
  rw [total_eq_foldr, total_eq_foldr, List.map_take, List.map_take, same]

theorem total_take {n i : Nat} (bound : n ≤ i) (inside : i ≤ slots.length) (rest : List Slot) :
    total n (slots.take i ++ rest) = total n slots := by
  rw [total_eq_foldr, total_eq_foldr,
    List.take_append_of_le_length (by simp [List.length_take, inside, bound]), List.take_take,
    Nat.min_eq_left bound]

theorem position_of_known {j : Nat} (known : ∀ slot ∈ slots, slot.words.isSome = true)
    (bound : j ≤ slots.length) : position slots j = some (total j slots) := by
  cases j with
  | zero => rfl
  | succ j =>
    have found : slots[j]? = some slots[j] := List.getElem?_eq_getElem bound
    obtain ⟨words, filled⟩ := Option.isSome_iff_exists.1 (known slots[j] (List.getElem_mem bound))
    rw [position_succ, found, Option.bind_some, filled, Option.map_some]

theorem position_before {i j : Nat} (known : ∀ slot ∈ slots', slot.words.isSome = true)
    (bound : j ≤ i) (inside : i ≤ slots'.length) :
    position (between slots slots' i) j = some (total j slots') := by
  cases j with
  | zero => rfl
  | succ j =>
    have found : (between slots slots' i)[j]? = slots'[j]? := by
      rw [between, List.getElem?_append_left (by rw [List.length_take]; omega),
        List.getElem?_take_of_lt bound]
    have placed := position_of_known known (Nat.le_trans bound inside)
    rw [position_succ] at placed ⊢
    rw [found, between, total_take bound inside]
    exact placed

theorem isSome_position {j : Nat}
    (same : slots.map (·.words.isSome) = slots'.map (·.words.isSome)) :
    (position slots j).isSome = (position slots' j).isSome := by
  cases j with
  | zero => rfl
  | succ j =>
    have entry : (slots[j]?.bind Slot.words).isSome = (slots'[j]?.bind Slot.words).isSome := by
      have entries := congrArg (·[j]?.getD false) same
      simp only [List.getElem?_map] at entries
      revert entries
      cases slots[j]? <;> cases slots'[j]? <;> simp
    rw [position_succ, position_succ, Option.isSome_map, Option.isSome_map, entry]

theorem position_of_sizes (known : ∀ slot ∈ slots, slot.words.isSome = true)
    (known' : ∀ slot ∈ slots', slot.words.isSome = true)
    (same : slots.map Slot.size = slots'.map Slot.size) : position slots = position slots' := by
  have length : slots.length = slots'.length := by simpa using congrArg List.length same
  funext j
  by_cases bound : j ≤ slots.length
  · rw [position_of_known known bound, position_of_known known' (length ▸ bound),
      total_of_sizes same]
  · cases j with
    | zero => rfl
    | succ j =>
      rw [position_succ, position_succ, List.getElem?_eq_none (by omega),
        List.getElem?_eq_none (by omega)]
      rfl

theorem known_between (known : ∀ slot ∈ slots, slot.words.isSome = true)
    (known' : ∀ slot ∈ slots', slot.words.isSome = true) (i : Nat) :
    ∀ slot ∈ between slots slots' i, slot.words.isSome = true := by
  intro slot member
  rcases List.mem_append.1 member with member | member
  · exact known' slot (List.mem_of_mem_take member)
  · exact known slot (List.mem_of_mem_drop member)

theorem sizes_between (same : slots.map Slot.size = slots'.map Slot.size) (i : Nat) :
    (between slots slots' i).map Slot.size = slots'.map Slot.size := by
  rw [between, List.map_append, List.map_take, List.map_drop, same, List.take_append_drop]

end

theorem map_eq_of_take {β : Type} {f : Slot → β} {slots slots' : List Slot}
    (length : slots'.length = slots.length)
    (step : ∀ {i slot slot'}, slots[i]? = some slot → slots'[i]? = some slot' →
      (slots'.take i).map f = (slots.take i).map f → f slot' = f slot) :
    slots'.map f = slots.map f := by
  have upTo (n : Nat) (bound : n ≤ slots.length) :
      (slots'.take n).map f = (slots.take n).map f := by
    induction n with
    | zero => simp
    | succ n ih =>
      have before := ih (Nat.le_of_succ_le bound)
      have here : slots[n]? = some slots[n] := List.getElem?_eq_getElem bound
      have here' : slots'[n]? = some slots'[n] := List.getElem?_eq_getElem (by omega)
      rw [List.take_add_one, List.take_add_one, here, here', List.map_append, List.map_append,
        before]
      simp [step here here' before]
  have whole := upTo slots.length (Nat.le_refl _)
  rwa [List.take_length, ← length, List.take_length] at whole

section

variable {optimize : Bool} {symbols : Symbols} {slots slots' slots'' : List Slot}

theorem words_of_sizes (known : ∀ slot ∈ slots, slot.words.isSome = true)
    (same : slots.map Slot.size = slots'.map Slot.size)
    (first : Passes optimize symbols true slots slots')
    (second : Passes optimize symbols true slots' slots'') :
    slots''.map Slot.words = slots'.map Slot.words := by
  have known' := known_of_passes first
  have known'' := known_of_passes second
  refine map_eq_of_take second.length ?_
  intro i slot' slot'' here' here'' before
  have bound : i < slots.length := by
    obtain ⟨bound, _⟩ := List.getElem?_eq_some_iff.1 here'
    rwa [first.length] at bound
  have here : slots[i]? = some slots[i] := List.getElem?_eq_getElem bound
  obtain ⟨words, emitted, left⟩ := first.emitted here
  obtain ⟨words', emitted', left'⟩ := second.emitted here'
  rw [here'] at left
  rw [here''] at left'
  cases left
  cases left'
  -- The second emission is at the positions of the first one, and repeats it.
  have sizes' : (between slots' slots'' i).map Slot.size = slots'.map Slot.size := by
    have lengths := congrArg (List.map fun w => (w.map List.length).getD 0) before
    rw [List.map_map, List.map_map] at lengths
    have front : (slots''.take i).map Slot.size = (slots'.take i).map Slot.size := lengths
    rw [between, List.map_append, front, ← List.map_append, List.take_append_drop]
  have positions : position (between slots' slots'' i) = position (between slots slots' i) := by
    apply position_of_sizes (known_between known' known'' i) (known_between known known' i)
    rw [sizes', sizes_between same]
  have start : total i slots'' = total i slots' := by
    have taken := total_congr before i
    rwa [← List.append_nil (slots''.take i), ← List.append_nil (slots'.take i),
      total_take (Nat.le_refl i) (by rw [second.length, first.length]; omega),
      total_take (Nat.le_refl i) (by rw [first.length]; omega)] at taken
  have size : slots[i].words.map List.length = some words.length := by
    obtain ⟨old, filled⟩ := Option.isSome_iff_exists.1 (known slots[i] (List.getElem_mem bound))
    have entries := congrArg (·[i]?) same
    simp only [List.getElem?_map, here, here', Option.map_some, Slot.size, filled, Option.getD_some,
      Option.some.injEq] at entries
    rw [filled, Option.map_some, entries]
  have again : emission optimize symbols true slots' slots'' i
      ⟨(emission optimize symbols true slots slots' i slots[i]).statement, some words⟩ =
      emission optimize symbols true slots slots' i slots[i] := by
    simp only [emission, positions, start, size, Option.map_some, Statement.emit_again]
  rw [again, emitted] at emitted'
  cases emitted'
  rfl

end

end WordAsm.Layout
