import WordAsm.Proofs.EmissionFaults
import WordAsm.Proofs.Latches
import WordAsm.Proofs.LayoutPasses

/-!
Convergence of layout. A finalizing pass that sets no new latch leaves every statement as long as
it was, so the pass after it changes nothing; and there are at most two latches for each
instruction. This needs statements whose lengths follow from their latches and from what stands
before them, as all do without the optimizer.
-/
namespace WordAsm

namespace Layout

def Steady (optimize : Bool) (symbols : Symbols) (index : Nat) (st : Statement) : Prop :=
  ∀ (st' : Statement) (before after : Nat → Option Nat) (pos : Nat) (old : Option Nat)
    (words words' : List UInt16), st'.fresh = st → (∀ j ≤ index, after j = before j) →
    let e := st'.emit optimize ⟨symbols, before, true⟩ pos old
    let e' := e.statement.emit optimize ⟨symbols, after, true⟩ pos (some words.length)
    e.outcome = .ok words → e'.outcome = .ok words' →
    e'.statement.latches = e.statement.latches → words'.length = words.length

def latches (slots : List Slot) : Nat := (slots.map fun slot => slot.statement.latches).sum

section

variable {optimize : Bool} {symbols : Symbols} {finalize : Bool} {slots slots' slots'' : List Slot}

theorem fresh_of_passes (passes : Passes optimize symbols finalize slots slots') :
    slots'.map (·.statement.fresh) = slots.map (·.statement.fresh) := by
  refine map_eq_of_take passes.length ?_
  intro i slot slot' here here' _
  obtain ⟨words, _, left⟩ := passes.emitted here
  rw [here'] at left
  cases left
  exact Statement.fresh_emit _ _ _ _ _

theorem latches_of_passes (passes : Passes optimize symbols finalize slots slots') :
    List.Forall₂ (fun slot slot' : Slot => slot.statement.latches ≤ slot'.statement.latches)
      slots slots' := by
  refine List.forall₂_iff_get.2 ⟨passes.length.symm, ?_⟩
  intro i bound bound'
  obtain ⟨words, _, left⟩ := passes.emitted (List.getElem?_eq_getElem bound)
  rw [List.getElem?_eq_getElem bound', Option.some.injEq] at left
  simp only [List.get_eq_getElem, left]
  exact Statement.latches_emit _ _ _ _ _

theorem latches_le (slots : List Slot) :
    latches slots ≤ 2 * (slots.map (·.statement.fresh)).countP Statement.isInstruction := by
  induction slots with
  | nil => exact Nat.le_refl _
  | cons slot rest ih =>
    have here := slot.statement.latches_le
    simp only [latches, List.map_cons, List.sum_cons, List.countP_cons,
      Statement.isInstruction_fresh] at ih ⊢
    cases kind : slot.statement.isInstruction with
    | true =>
      rw [kind] at here
      simp only [Bool.toNat_true, if_true] at here ⊢
      omega
    | false =>
      rw [kind] at here
      simp only [Bool.toNat_false, Bool.false_eq_true, if_false] at here ⊢
      omega

theorem sizes_of_latches
    (steady : ∀ i st, (slots.map (·.statement.fresh))[i]? = some st →
      Steady optimize symbols i st)
    (first : Passes optimize symbols true slots slots')
    (second : Passes optimize symbols true slots' slots'')
    (same : latches slots'' = latches slots') :
    slots''.map Slot.size = slots'.map Slot.size := by
  have known' := known_of_passes first
  have known'' := known_of_passes second
  have unlatched := eq_of_sum (latches_of_passes second) same
  refine map_eq_of_take second.length ?_
  intro i slot' slot'' here' here'' before
  obtain ⟨bound, _⟩ := List.getElem?_eq_some_iff.1 here'
  have inside : i < slots.length := by rwa [first.length] at bound
  have bound'' : i < slots''.length := by rwa [second.length]
  have here : slots[i]? = some slots[i] := List.getElem?_eq_getElem inside
  obtain ⟨words, emitted, left⟩ := first.emitted here
  obtain ⟨words', emitted', left'⟩ := second.emitted here'
  rw [here'] at left
  rw [here''] at left'
  cases left
  cases left'
  have moved (j : Nat) (earlier : j ≤ i) : total j slots'' = total j slots' := by
    have taken := total_of_sizes before j
    rwa [← List.append_nil (slots''.take i), ← List.append_nil (slots'.take i),
      total_take earlier (Nat.le_of_lt bound''), total_take earlier (Nat.le_of_lt bound)] at taken
  have agree (j : Nat) (earlier : j ≤ i) : position (between slots' slots'' i) j =
      position (between slots slots' i) j := by
    rw [position_before known'' earlier (Nat.le_of_lt bound''),
      position_before known' earlier (Nat.le_of_lt bound), moved j earlier]
  have latched : (emission optimize symbols true slots' slots'' i
      ⟨(emission optimize symbols true slots slots' i slots[i]).statement, some words⟩
      ).statement.latches = (emission optimize symbols true slots slots' i
        slots[i]).statement.latches := by
    have entry := (List.forall₂_iff_get.1 unlatched).2 i bound bound''
    rw [List.getElem?_eq_getElem bound, Option.some.injEq] at here'
    rw [List.getElem?_eq_getElem bound'', Option.some.injEq] at here''
    simpa only [List.get_eq_getElem, here', here''] using entry
  simp only [emission, moved i (Nat.le_refl i), Option.map_some] at emitted emitted' latched
  have read : (slots.map (·.statement.fresh))[i]? = some slots[i].statement.fresh := by
    rw [List.getElem?_map, here, Option.map_some]
  exact steady i _ read _ _ _ _ _ _ _ rfl agree emitted emitted' latched

theorem failsWith_settle {allowed : Fault → Prop} {statements : List Statement}
    (steady : ∀ i st, statements[i]? = some st → Steady optimize symbols i st)
    (fails : ∀ slots, slots.map (·.statement.fresh) = statements →
      (∀ slot ∈ slots, slot.words.isSome = true) → ∀ failure,
      (pass optimize symbols true slots).outcome = .error failure → allowed failure.fault)
    {count left : Nat} {failure : Failure}
    (fresh : slots.map (·.statement.fresh) = statements)
    (first : Passes optimize symbols true slots slots')
    (enough : 2 * statements.countP Statement.isInstruction + 2 ≤ left + latches slots')
    (failed : (settle optimize symbols count left slots').failure = some failure) :
    allowed failure.fault := by
  have fresh' := (fresh_of_passes first).trans fresh
  induction left generalizing slots slots' count with
  | zero =>
    have most := latches_le slots'
    rw [fresh'] at most
    omega
  | succ left ih =>
    simp only [settle] at failed
    split at failed
    · rename_i stopped
      cases failed
      exact fails slots' fresh' (known_of_passes first) _ stopped
    · rename_i changed passed
      obtain ⟨second, _⟩ := passes_of_pass passed
      have fresh'' := (fresh_of_passes second).trans fresh'
      have more := sum_mono (latches_of_passes second)
      split at failed
      · by_cases same : latches (pass optimize symbols true slots').slots = latches slots'
        · -- No latch is new, so the next pass changes nothing.
          have sizes := sizes_of_latches (fresh.symm ▸ steady) first second same
          obtain ⟨left, rfl⟩ : ∃ n, left = n + 1 := ⟨left - 1, by
            have most := latches_le slots'
            rw [fresh'] at most
            omega⟩
          simp only [settle] at failed
          split at failed
          · rename_i stopped
            cases failed
            exact fails _ fresh'' (known_of_passes second) _ stopped
          · rename_i changed' passed'
            obtain ⟨third, unchanged⟩ := passes_of_pass passed'
            have words := words_of_sizes (known_of_passes first) sizes.symm second third
            rw [unchanged words] at failed
            simp at failed
        · refine ih fresh' second ?_ failed fresh''
          simp only [latches] at more same enough ⊢
          omega
      · cases failed

end

theorem failsWith_run {o : Options} {symbols : Symbols} {statements : List Statement}
    {allowed : Fault → Prop}
    (steady : ∀ i st, (statements.map Statement.fresh)[i]? = some st →
      Steady o.optimize symbols i st)
    (provisional : ∀ failure, (pass o.optimize symbols false (start statements)).outcome =
      .error failure → allowed failure.fault)
    (fails : ∀ slots, slots.map (·.statement.fresh) = statements.map Statement.fresh →
      (∀ slot ∈ slots, slot.words.isSome = true) → ∀ failure,
      (pass o.optimize symbols true slots).outcome = .error failure → allowed failure.fault)
    (enough : 2 * statements.countP Statement.isInstruction + 3 ≤ o.passes) {failure : Failure}
    (failed : (run o symbols statements).failure = some failure) : allowed failure.fault := by
  simp only [run] at failed
  split at failed
  · rename_i stopped
    cases failed
    exact provisional _ stopped
  · rename_i passed
    obtain ⟨zeroth, _⟩ := passes_of_pass passed
    have fresh : (pass o.optimize symbols false (start statements)).slots.map
        (·.statement.fresh) = statements.map Statement.fresh := by
      rw [fresh_of_passes zeroth, start, List.map_map]
      rfl
    have count : (statements.map Statement.fresh).countP Statement.isInstruction =
        statements.countP Statement.isInstruction := by
      rw [List.countP_map]
      congr 1
      funext st
      exact st.isInstruction_fresh
    obtain ⟨left, more⟩ : ∃ left, o.passes = left + 1 := ⟨o.passes - 1, by omega⟩
    simp only [more, settle] at failed
    split at failed
    · rename_i stopped
      cases failed
      exact fails _ fresh (known_of_passes zeroth) _ stopped
    · rename_i passed'
      obtain ⟨first, _⟩ := passes_of_pass passed'
      split at failed
      · refine failsWith_settle steady fails fresh first ?_ failed
        rw [count]
        omega
      · cases failed

theorem isEmitted_of_pass {optimize : Bool} {symbols : Symbols} {finalize : Bool}
    {slots : List Slot} {failure : Failure}
    (failed : (pass optimize symbols finalize slots).outcome = .error failure) :
    failure.fault.isEmitted = true := by
  obtain ⟨_, _, _, _, _, _, _, error⟩ := failed_of_pass failed
  exact Statement.emits_emit _ _ _ _ _ _ error

def Passed.slots? (p : Passed) : Option (List Slot) :=
  match p.outcome with
  | .ok _ => some p.slots
  | .error _ => none

/-- The slots after the provisional pass and so many finalizing passes. -/
def after (optimize : Bool) (symbols : Symbols) (statements : List Statement) :
    Nat → Option (List Slot)
  | 0 => (pass optimize symbols false (start statements)).slots?
  | n + 1 => (after optimize symbols statements n).bind fun slots =>
    (pass optimize symbols true slots).slots?

section

variable {optimize : Bool} {symbols : Symbols} {finalize : Bool} {slots slots' : List Slot}
  {statements : List Statement} {n : Nat}

theorem passes_of_slots (passed : (pass optimize symbols finalize slots).slots? = some slots') :
    Passes optimize symbols finalize slots slots' := by
  unfold Passed.slots? at passed
  split at passed
  · rename_i succeeded
    cases passed
    exact (passes_of_pass succeeded).1
  · cases passed

theorem passes_of_after (reached : after optimize symbols statements (n + 1) = some slots) :
    ∃ slots₀, after optimize symbols statements n = some slots₀ ∧
      Passes optimize symbols true slots₀ slots := by
  obtain ⟨slots₀, earlier, passed⟩ := Option.bind_eq_some_iff.1 reached
  exact ⟨slots₀, earlier, passes_of_slots passed⟩

theorem fresh_after (reached : after optimize symbols statements n = some slots) :
    slots.map (·.statement.fresh) = statements.map Statement.fresh := by
  induction n generalizing slots with
  | zero =>
    rw [fresh_of_passes (passes_of_slots reached), start, List.map_map]
    rfl
  | succ n ih =>
    obtain ⟨slots₀, earlier, passes⟩ := passes_of_after reached
    rw [fresh_of_passes passes, ih earlier]

theorem sizes_mono (read : ∀ st ∈ statements, st.fresh.IsRead)
    (reached : after false symbols statements (n + 1) = some slots)
    (next : after false symbols statements (n + 2) = some slots') :
    List.Forall₂ (fun slot slot' => slot.size ≤ slot'.size) slots slots' := by
  obtain ⟨slots₀, earlier, first⟩ := passes_of_after reached
  obtain ⟨slots₁, reached', second⟩ := passes_of_after next
  rw [reached] at reached'
  cases reached'
  have fresh := fresh_after earlier
  refine List.forall₂_iff_get.2 ⟨second.length.symm, ?_⟩
  intro i bound bound'
  have inside : i < slots₀.length := by rwa [first.length] at bound
  have here : slots₀[i]? = some slots₀[i] := List.getElem?_eq_getElem inside
  have isRead : slots₀[i].statement.fresh.IsRead := by
    have entry := congrArg (·[i]?) fresh
    simp only [List.getElem?_map, here, Option.map_some] at entry
    obtain ⟨st, found, same⟩ := Option.map_eq_some_iff.1 entry.symm
    rw [← same]
    exact read st (List.mem_of_getElem? found)
  obtain ⟨words, emitted, left⟩ := first.emitted here
  have here' : slots[i]? = some slots[i] := List.getElem?_eq_getElem bound
  obtain ⟨words', emitted', left'⟩ := second.emitted here'
  rw [here', Option.some.injEq] at left
  rw [List.getElem?_eq_getElem bound', Option.some.injEq] at left'
  simp only [List.get_eq_getElem, left', Slot.size, Option.map_some, Option.getD_some]
  rw [left] at emitted' ⊢
  exact Statement.length_mono isRead (Statement.keepsForm_plain _) rfl rfl emitted emitted'

end

end Layout

/-- Without the optimizer and with padding of known size, layout settles within two passes for
each instruction and three more, or fails for another reason than not settling; and statements
never get shorter from one finalizing pass to the next. -/
theorem plain_layout_converges (o : Options) (file source : String) (plain : o.optimize = false)
    (padding : ∀ st ∈ (preprocess o file source).1.statements, st.hasFixedPadding = true)
    (enough : 2 * ((preprocess o file source).1.statements.countP Statement.isInstruction : Int)
      + 3 ≤ o.maxPasses) :
    let work := (preprocess o file source).1
    let statements := work.statements.reverse
    (∀ failure, (Layout.run o work.symbols statements).failure = some failure →
      ∀ n, failure.fault ≠ .notConverged n) ∧
    ∀ n slots slots', Layout.after false work.symbols statements (n + 1) = some slots →
      Layout.after false work.symbols statements (n + 2) = some slots' →
      List.Forall₂ (fun slot slot' => slot.size ≤ slot'.size) slots slots' := by
  intro work statements
  have reads (st : Statement) (member : st ∈ statements) : st.fresh.IsRead := by
    have read := statements_isRead o file source st (List.mem_reverse.1 member)
    rwa [Statement.fresh_of_isRead read]
  have steady (i : Nat) (st : Statement)
      (found : (statements.map Statement.fresh)[i]? = some st) :
      Layout.Steady o.optimize work.symbols i st := by
    obtain ⟨st, member, rfl⟩ := List.mem_map.1 (List.mem_of_getElem? found)
    intro st' before after pos old words words' fresh _ e e' first second latches
    simp only [e, e', plain] at first second latches
    refine @Statement.length_steady false ⟨work.symbols, before, true⟩ ⟨work.symbols, after, true⟩
      pos old st' words words' ?_ st'.keepsForm_plain ?_ rfl rfl rfl first second latches
    · rw [fresh]
      exact reads st member
    · rw [← Statement.hasFixedPadding_fresh, fresh, Statement.hasFixedPadding_fresh]
      exact padding st (List.mem_reverse.1 member)
  constructor
  · intro failure failed n unsettled
    have count : statements.countP Statement.isInstruction =
        (preprocess o file source).1.statements.countP Statement.isInstruction :=
      List.countP_reverse
    have enough' : 2 * statements.countP Statement.isInstruction + 3 ≤ o.passes := by
      rw [Options.passes, if_neg (by omega), count]
      omega
    have emitted : failure.fault.isEmitted = true := by
      refine @Layout.failsWith_run o work.symbols statements (fun f => f.isEmitted = true) steady
        ?_ ?_ enough' _ failed
      · intro failure failed
        exact Layout.isEmitted_of_pass failed
      · intro slots _ _ failure failed
        exact Layout.isEmitted_of_pass failed
    rw [unsettled] at emitted
    cases emitted
  · intro n slots slots' reached next
    exact Layout.sizes_mono reads reached next

-- The label comes closer in the first finalizing pass, so that the first operand gets a word of
-- its own in the second one; this moves the label past a boundary, and the other two follow.
theorem plain_layout_converges_chained :
    let source := "SET A, 61-end\nSET B, end+1\nSET C, end\n.align 3\n.fill 25\n:end DAT end"
    let o : Options := { optimize := false, maxPasses := 9 }
    let work := (preprocess o "chained" source).1
    let statements := work.statements.reverse
    work.statements.countP Statement.isInstruction = 3 ∧
    (∀ st ∈ work.statements, st.hasFixedPadding = true) ∧
    (∀ failure, (Layout.run o work.symbols statements).failure = some failure →
      ∀ n, failure.fault ≠ .notConverged n) ∧
    ∀ n slots slots', Layout.after false work.symbols statements (n + 1) = some slots →
      Layout.after false work.symbols statements (n + 2) = some slots' →
      List.Forall₂ (fun slot slot' => slot.size ≤ slot'.size) slots slots' := by
  intro source o work statements
  obtain ⟨count, padding⟩ : work.statements.countP Statement.isInstruction = 3 ∧
      ∀ st ∈ work.statements, st.hasFixedPadding = true := by decide +kernel
  refine ⟨count, padding, plain_layout_converges o "chained" source rfl padding ?_⟩
  rw [count]
  decide

end WordAsm
