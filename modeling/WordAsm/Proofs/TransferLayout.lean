import WordAsm.Proofs.LayoutConvergence
import WordAsm.Proofs.SourceEntries

/-!
Layout of statements that are words or go to labels, beside an image that holds them. In every pass
such a statement has the words of the image but for the literals of calls and jumps, which follow
the positions of labels and, once they have taken a word of their own, keep it.
-/
namespace WordAsm

theorem Argument.isWord_some (latched : Bool) (n : Nat) :
    (ofPosition latched (some n)).isWord =
      (latched || decide (Field.maxLiteral.toNat < n % addressSpace)) := by
  have small : UInt16.ofNat n ≤ Field.maxLiteral ↔ n % addressSpace ≤ Field.maxLiteral.toNat := by
    rw [UInt16.le_iff_toNat_le, UInt16.toNat_ofNat']
    rfl
  simp only [ofPosition, small]
  cases latched with
  | true => rfl
  | false =>
    by_cases fits : n % addressSpace ≤ Field.maxLiteral.toNat
    · simp [fits, isWord, Nat.not_lt.2 fits]
    · simp [fits, isWord, Nat.not_le.1 fits]

theorem Transfer.length_decoded (kind : Transfer) (latched : Bool) (position : Option Nat) :
    (kind.decoded (.ofPosition latched position)).words.length =
      if (Argument.ofPosition latched position).isWord then 2 else 1 := by
  have literal : ∃ v, Argument.ofPosition latched position = .word v ∨
      Argument.ofPosition latched position = .short v := by
    cases position with
    | none => exact ⟨0, .inl rfl⟩
    | some n =>
      refine ⟨.ofNat n, ?_⟩
      simp only [Argument.ofPosition]
      split
      · exact .inr rfl
      · exact .inl rfl
  obtain ⟨v, same | same⟩ := literal <;> rw [same] <;> cases kind <;> rfl

/-- Whether an operand of the statement is latched. -/
def Statement.isLatched (st : Statement) : Bool := st.latches != 0

theorem Statement.isLatched_goes {kind : Transfer} {name : String} {latched : Bool}
    {st : Statement} (goes : st.Goes kind name latched) : st.isLatched = latched := by
  rw [isLatched, latches_goes goes]
  cases latched <;> rfl

namespace Layout

/-- What a statement stands for: words, or a call or jump to the statement with that index. -/
inductive Part where
  | words (ws : List UInt16)
  | transfer (kind : Transfer) (index : Nat)

namespace Part

/-- The words of a part, as far as positions are known. -/
def encode (latched : Bool) (position : Nat → Option Nat) : Part → List UInt16
  | words ws => ws
  | transfer kind index => (kind.decoded (.ofPosition latched (position index))).words

def Holds (symbols : Symbols) (part : Part) (st : Statement) : Prop :=
  match part with
  | words ws => st.Gives false ws
  | transfer kind index => ∃ name latched, IsName name ∧
    symbols.labels[Text.upper name]? = some ⟨index, 0⟩ ∧ st.Goes kind name latched

theorem hasFixedPadding_holds {symbols : Symbols} {part : Part} {st : Statement}
    (holds : part.Holds symbols st) : st.hasFixedPadding = true := by
  cases part with
  | words ws =>
    obtain ⟨line, body⟩ := st
    cases body with
    | fill f => cases holds
    | align a => cases holds
    | _ => rfl
  | transfer kind index =>
    obtain ⟨name, latched, -, -, -, i, body, -⟩ := holds
    rw [Statement.hasFixedPadding, body]

def IsKnown (position : Nat → Option Nat) : Part → Prop
  | words _ => True
  | transfer _ index => (position index).isSome = true

theorem emit_holds {symbols : Symbols} {part : Part} {st : Statement}
    (holds : part.Holds symbols st) {position : Nat → Option Nat} {finalize : Bool}
    (known : finalize = true → part.IsKnown position) (pos : Int) (old : Option Nat) :
    let e := st.emit false ⟨symbols, position, finalize⟩ pos old
    e.outcome = .ok (part.encode st.isLatched position) ∧
      part.Holds symbols e.statement ∧
      ∀ kind index, part = .transfer kind index → e.statement.isLatched =
        (st.isLatched ||
          (finalize && (Argument.ofPosition st.isLatched (position index)).isWord)) := by
  cases part with
  | words ws =>
    obtain ⟨emitted, again⟩ := Statement.emit_gives holds ⟨symbols, position, finalize⟩ pos old
    exact ⟨emitted, again, by simp⟩
  | transfer kind index =>
    obtain ⟨name, latched, named, marked, goes⟩ := holds
    obtain ⟨emitted, again⟩ := @Statement.emit_goes kind name named st latched goes
      ⟨symbols, position, finalize⟩ index marked known pos old
    rw [Statement.isLatched_goes goes]
    refine ⟨emitted, ⟨name, _, named, marked, again⟩, ?_⟩
    rintro _ _ ⟨⟩
    exact Statement.isLatched_goes again

end Part

/-! Sums of lengths. -/

section

variable {slots slots' : List Slot}

theorem total_add (i k : Nat) (slots : List Slot) :
    total (i + k) slots = total i slots + total k (slots.drop i) := by
  induction i generalizing slots with
  | zero => simp [total]
  | succ i ih =>
    cases slots with
    | nil =>
      rw [Nat.add_right_comm, List.drop_nil]
      cases k <;> rfl
    | cons slot rest =>
      rw [Nat.add_right_comm, total, total, ih, List.drop_succ_cons, Nat.add_assoc]

theorem total_succ {i : Nat} {slot : Slot} (found : slots[i]? = some slot) :
    total (i + 1) slots = total i slots + slot.size := by
  obtain ⟨bound, rfl⟩ := List.getElem?_eq_some_iff.1 found
  rw [total_add, List.drop_eq_getElem_cons bound]
  rfl

theorem total_eq_of_sizes {n : Nat} {place : Nat → Nat} (first : place 0 = 0)
    (sizes : ∀ m < n, (∀ k ≤ m, total k slots = place k) →
      ∃ slot, slots[m]? = some slot ∧ place (m + 1) = place m + slot.size)
    {k : Nat} (bound : k ≤ n) : total k slots = place k := by
  induction k using Nat.strongRecOn with
  | _ k ih =>
    cases k with
    | zero => exact first.symm
    | succ m =>
      have before (k : Nat) (earlier : k ≤ m) : total k slots = place k :=
        ih k (Nat.lt_succ_of_le earlier) (Nat.le_trans earlier (Nat.le_of_succ_le bound))
      obtain ⟨slot, found, size⟩ := sizes m bound before
      rw [total_succ found, before m (Nat.le_refl m), size]

theorem total_between {i : Nat} (inside : i ≤ slots'.length) (j : Nat) :
    total j (between slots slots' i) =
      if j ≤ i then total j slots' else total i slots' + (total j slots - total i slots) := by
  split
  · rename_i before
    exact total_take before inside _
  · rename_i after
    obtain ⟨k, rfl⟩ := Nat.exists_eq_add_of_le (Nat.le_of_not_le after)
    have rest : (between slots slots' i).drop i = slots.drop i := by
      rw [between, List.drop_append_of_le_length (by simp [inside]), List.drop_take, Nat.sub_self,
        List.take_zero, List.nil_append]
    have front : total i (between slots slots' i) = total i slots' :=
      total_take (Nat.le_refl i) inside _
    rw [total_add, rest, front, total_add i k slots, Nat.add_sub_cancel_left]

theorem position_start {statements : List Statement} {i j : Nat} (later : i < j) :
    position (between (start statements) slots' i) j = none := by
  obtain ⟨j, rfl⟩ : ∃ k, j = k + 1 := ⟨j - 1, by omega⟩
  have unplaced : (between (start statements) slots' i)[j]?.bind Slot.words = none := by
    rw [between, List.getElem?_append_right (by simp; omega), start, ← List.map_drop,
      List.getElem?_map]
    cases ((statements.drop i)[j - (slots'.take i).length]?) <;> rfl
  rw [position_succ, unplaced]
  rfl

end

/-! Passes. -/

def Hold (symbols : Symbols) (parts : List Part) (slots : List Slot) : Prop :=
  List.Forall₂ (fun part slot => part.Holds symbols slot.statement) parts slots

def Closed (parts : List Part) : Prop :=
  ∀ kind index, .transfer kind index ∈ parts → index < parts.length

section

variable {symbols : Symbols} {parts : List Part} {finalize : Bool} {slots slots' : List Slot}
  (hold : Hold symbols parts slots) (closed : Closed parts)
  (known : finalize = true → ∀ slot ∈ slots, slot.words.isSome = true)

include hold

theorem Hold.at {i : Nat} {part : Part} {slot : Slot} (here : parts[i]? = some part)
    (found : slots[i]? = some slot) : part.Holds symbols slot.statement := by
  obtain ⟨bound, rfl⟩ := List.getElem?_eq_some_iff.1 here
  obtain ⟨bound', rfl⟩ := List.getElem?_eq_some_iff.1 found
  exact hold.get bound bound'

include closed known

theorem isKnown_between {new : List Slot} {i : Nat} (bound : i ≤ slots.length)
    (enough : i ≤ new.length) (placed : ∀ slot ∈ new, slot.words.isSome = true) {part : Part}
    (member : part ∈ parts) (final : finalize = true) :
    part.IsKnown (position (between slots new i)) := by
  cases part with
  | words ws => trivial
  | transfer kind index =>
    have inside := closed kind index member
    have length : (between slots new i).length = slots.length := by
      simp only [between, List.length_append, List.length_take, List.length_drop]
      omega
    rw [Part.IsKnown, position_of_known (known_between (known final) placed i)
      (by rw [length, ← hold.length_eq]; omega)]
    rfl

theorem Hold.pass : ∃ changed, (pass false symbols finalize slots).outcome = .ok changed := by
  cases outcome : (Layout.pass false symbols finalize slots).outcome with
  | ok changed => exact ⟨changed, rfl⟩
  | error failure =>
    obtain ⟨new, i, slot, found, length, placed, -, error⟩ := failed_of_pass outcome
    obtain ⟨bound, rfl⟩ := List.getElem?_eq_some_iff.1 found
    have inside : i < parts.length := hold.length_eq ▸ bound
    have here : parts[i]? = some parts[i] := List.getElem?_eq_getElem inside
    have emitted := (Part.emit_holds (hold.at here found)
      (isKnown_between hold closed known (Nat.le_of_lt bound) (Nat.le_of_eq length.symm) placed
        (List.mem_of_getElem? here)) (total i new) (slots[i].words.map List.length)).1
    rw [emission, emitted] at error
    cases error

variable (passes : Passes false symbols finalize slots slots')

include passes

theorem Hold.emitted {i : Nat} {part : Part} {slot slot' : Slot} (here : parts[i]? = some part)
    (found : slots[i]? = some slot) (found' : slots'[i]? = some slot') :
    slot'.words = some (part.encode slot.statement.isLatched (position (between slots slots' i))) ∧
      part.Holds symbols slot'.statement ∧
      ∀ kind index, part = .transfer kind index → slot'.statement.isLatched =
        (slot.statement.isLatched || (finalize && (Argument.ofPosition slot.statement.isLatched
          (position (between slots slots' i) index)).isWord)) := by
  obtain ⟨bound, -⟩ := List.getElem?_eq_some_iff.1 found
  have bound' : i ≤ slots'.length := by
    rw [passes.length]
    exact Nat.le_of_lt bound
  obtain ⟨words, emitted, left⟩ := passes.emitted found
  obtain ⟨outcome, again, latched⟩ := Part.emit_holds (hold.at here found)
    (isKnown_between hold closed known (Nat.le_of_lt bound) bound' (known_of_passes passes)
      (List.mem_of_getElem? here)) (total i slots') (slot.words.map List.length)
  rw [emission, outcome] at emitted
  cases emitted
  rw [found'] at left
  cases left
  exact ⟨rfl, again, latched⟩

theorem Hold.next : Hold symbols parts slots' := by
  refine List.forall₂_iff_get.2 ⟨hold.length_eq.trans passes.length.symm, ?_⟩
  intro i bound bound'
  have inside : i < slots.length := hold.length_eq ▸ bound
  exact (hold.emitted closed known passes (List.getElem?_eq_getElem bound)
    (List.getElem?_eq_getElem inside) (List.getElem?_eq_getElem bound')).2.1

end

/-! Settling. -/

section

variable {optimize : Bool} {symbols : Symbols} {keeps : List Slot → Prop}

theorem settle_keeps {count left : Nat} {slots : List Slot}
    (step : ∀ slots slots', keeps slots → Passes optimize symbols true slots slots' → keeps slots')
    (held : keeps slots) (settled : (settle optimize symbols count left slots).failure = none) :
    keeps (settle optimize symbols count left slots).slots := by
  induction left generalizing count slots with
  | zero => exact held
  | succ left ih =>
    simp only [settle] at settled ⊢
    split at settled
    · cases settled
    · rename_i changed outcome
      have after := step _ _ held (passes_of_pass outcome).1
      cases changed with
      | true => exact ih after settled
      | false => exact after

theorem settle_fault {count left : Nat} {slots : List Slot}
    (step : ∀ slots, keeps slots → ∃ changed,
      (pass optimize symbols true slots).outcome = .ok changed ∧
        keeps (pass optimize symbols true slots).slots)
    (held : keeps slots) {failure : Failure}
    (failed : (settle optimize symbols count left slots).failure = some failure) :
    ∃ n, failure.fault = .notConverged n := by
  induction left generalizing count slots with
  | zero =>
    cases failed
    exact ⟨count, rfl⟩
  | succ left ih =>
    obtain ⟨changed, outcome, after⟩ := step slots held
    simp only [settle, outcome] at failed
    cases changed with
    | true => exact ih after failed
    | false => cases failed

end

section

variable {o : Options} (plain : o.optimize = false) {symbols : Symbols} {parts : List Part}
  {statements : List Statement} (hold : Hold symbols parts (start statements))
  (closed : Closed parts)

include plain hold closed

omit plain closed in
theorem Hold.steady (reads : ∀ st ∈ statements, st.fresh.IsRead) (i : Nat) (st : Statement)
    (found : (statements.map Statement.fresh)[i]? = some st) : Steady false symbols i st := by
  obtain ⟨st, member, rfl⟩ := List.mem_map.1 (List.mem_of_getElem? found)
  have padding : st.hasFixedPadding = true := by
    obtain ⟨k, here⟩ := List.getElem?_of_mem member
    have slot : (start statements)[k]? = some ⟨st, none⟩ := by
      rw [start, List.getElem?_map, here, Option.map_some]
    have inside : k < parts.length := hold.length_eq ▸ (List.getElem?_eq_some_iff.1 slot).1
    exact Part.hasFixedPadding_holds (hold.at (List.getElem?_eq_getElem inside) slot)
  intro st' before after pos old words words' fresh _ e e' first second latches
  refine @Statement.length_steady false ⟨symbols, before, true⟩ ⟨symbols, after, true⟩
    pos old st' words words' (by rw [fresh]; exact reads st member) st'.keepsForm_plain
      ?_ rfl rfl rfl
    first second latches
  rw [← Statement.hasFixedPadding_fresh, fresh, Statement.hasFixedPadding_fresh]
  exact padding

theorem Hold.run (reads : ∀ st ∈ statements, st.fresh.IsRead)
    (enough : 2 * statements.countP Statement.isInstruction + 3 ≤ o.passes) :
    (run o symbols statements).failure = none := by
  cases failed : (Layout.run o symbols statements).failure with
  | none => rfl
  | some failure =>
    -- With so many passes only a statement can fail, and none of these does.
    have emitted : failure.fault.isEmitted = true := by
      refine @failsWith_run o symbols statements (fun fault => fault.isEmitted = true) ?_
        (fun _ => isEmitted_of_pass) (fun _ _ _ _ => isEmitted_of_pass) enough _ failed
      rw [plain]
      exact hold.steady reads
    obtain ⟨changed, outcome⟩ := @Hold.pass symbols parts false _ hold closed nofun
    have passes := (passes_of_pass outcome).1
    let keeps (slots : List Slot) : Prop :=
      Hold symbols parts slots ∧ ∀ slot ∈ slots, slot.words.isSome = true
    have first : keeps (Layout.pass false symbols false (start statements)).slots :=
      ⟨@Hold.next symbols parts false _ _ hold closed nofun passes, known_of_passes passes⟩
    have step (slots : List Slot) (held : keeps slots) : ∃ changed,
        (Layout.pass false symbols true slots).outcome = .ok changed ∧
          keeps (Layout.pass false symbols true slots).slots := by
      obtain ⟨changed, outcome⟩ := @Hold.pass symbols parts true _ held.1 closed fun _ => held.2
      have passes := (passes_of_pass outcome).1
      exact ⟨changed, outcome, held.1.next closed (fun _ => held.2) passes, known_of_passes passes⟩
    simp only [Layout.run, plain, outcome] at failed
    obtain ⟨n, unsettled⟩ := settle_fault step first failed
    rw [unsettled] at emitted
    cases emitted

theorem Hold.settled (settled : (Layout.run o symbols statements).failure = none) :
    ∃ slots, Passes false symbols false (start statements) slots ∧ Hold symbols parts slots ∧
      Passes false symbols true (Layout.run o symbols statements).slots
        (Layout.run o symbols statements).slots ∧
      ∀ keeps : List Slot → Prop,
        (∀ slots', Passes false symbols true slots slots' → keeps slots') →
        (∀ slots slots', Hold symbols parts slots → (∀ slot ∈ slots, slot.words.isSome = true) →
          keeps slots → Passes false symbols true slots slots' → keeps slots') →
        Hold symbols parts (Layout.run o symbols statements).slots ∧
          keeps (Layout.run o symbols statements).slots := by
  obtain ⟨changed, outcome⟩ := @Hold.pass symbols parts false _ hold closed nofun
  have passes := (passes_of_pass outcome).1
  have first := @Hold.next symbols parts false _ _ hold closed nofun passes
  have fixed := (fixed_of_run settled).pass
  rw [plain] at fixed
  have again := (passes_of_pass fixed.1).1
  rw [fixed.2] at again
  simp only [Layout.run, plain, outcome] at settled again ⊢
  generalize (Layout.pass false symbols false (start statements)).slots = slots
    at passes first settled again ⊢
  refine ⟨slots, passes, first, again, fun keeps start step => ?_⟩
  -- Before the first finalizing pass nothing is known to be kept.
  let stage (slots' : List Slot) : Prop :=
    Hold symbols parts slots' ∧ (∀ slot ∈ slots', slot.words.isSome = true) ∧
      (slots' = slots ∨ keeps slots')
  have stages (old new : List Slot) (held : stage old)
      (passes' : Passes false symbols true old new) : stage new := by
    obtain ⟨hold', known, place⟩ := held
    refine ⟨hold'.next closed (fun _ => known) passes', known_of_passes passes', .inr ?_⟩
    rcases place with rfl | kept
    · exact start new passes'
    · exact step old new hold' known kept passes'
  obtain ⟨hold', -, same | kept⟩ :=
    settle_keeps stages ⟨first, known_of_passes passes, .inl rfl⟩ settled
  · rw [same] at again hold' ⊢
    exact ⟨hold', start slots again⟩
  · exact ⟨hold', kept⟩

end

end Layout

end WordAsm
