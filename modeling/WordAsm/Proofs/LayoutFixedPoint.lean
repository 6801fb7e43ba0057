import WordAsm.Program
import WordAsm.Proofs.Emission

/-!
A layout that has settled is a fixed point of the finalizing pass. In a pass that changes no
words every statement sees the positions of the final layout, although it is emitted between new
slots and old ones; emitting it once more gives the same words and leaves it as it is. So the
slots themselves, and with them the program, stay the same under any number of further passes.
-/
namespace WordAsm.Layout

theorem position_succ (slots : List Slot) (i : Nat) :
    position slots (i + 1) = (slots[i]?.bind Slot.words).map fun _ => total (i + 1) slots := by
  rw [position]
  rcases slots[i]? with _ | ⟨statement, _ | words⟩ <;> rfl

theorem total_congr {slots slots' : List Slot}
    (same : slots.map Slot.words = slots'.map Slot.words) (n : Nat) :
    total n slots = total n slots' := by
  have sizes : slots.map Slot.size = slots'.map Slot.size := by
    have lengths := congrArg (List.map fun w => (w.map List.length).getD 0) same
    rwa [List.map_map, List.map_map] at lengths
  rw [total_eq_foldr, total_eq_foldr, List.map_take, List.map_take, sizes]

theorem position_congr {slots slots' : List Slot}
    (same : slots.map Slot.words = slots'.map Slot.words) : position slots = position slots' := by
  funext i
  cases i with
  | zero => rfl
  | succ i =>
    have words : slots[i]?.bind Slot.words = slots'[i]?.bind Slot.words := by
      have entries := congrArg (·[i]?.bind id) same
      simpa only [List.getElem?_map, Option.bind_map, Function.id_comp] using entries
    rw [position_succ, position_succ, words, total_congr same]

@[simp] theorem size_words (statement : Statement) (slot : Slot) :
    Slot.size ⟨statement, slot.words⟩ = slot.size := rfl

def Stable (optimize : Bool) (ctx : Context) (pos : Nat) : List Slot → Prop
  | [] => True
  | slot :: rest =>
    (∃ words, slot.words = some words ∧
      (slot.statement.emit optimize ctx pos (some words.length)).outcome = .ok words) ∧
    Stable optimize ctx (pos + slot.size) rest

def refresh (optimize : Bool) (ctx : Context) (pos : Nat) : List Slot → List Slot
  | [] => []
  | slot :: rest =>
    ⟨(slot.statement.emit optimize ctx pos (some slot.size)).statement, slot.words⟩ ::
      refresh optimize ctx (pos + slot.size) rest

theorem map_words_refresh (optimize : Bool) (ctx : Context) (pos : Nat) (slots : List Slot) :
    (refresh optimize ctx pos slots).map Slot.words = slots.map Slot.words := by
  induction slots generalizing pos with
  | nil => rfl
  | cons slot rest ih => simp only [refresh, List.map_cons, ih]

theorem stable_refresh {optimize : Bool} {ctx : Context} {pos : Nat} {slots : List Slot}
    (stable : Stable optimize ctx pos slots) :
    Stable optimize ctx pos (refresh optimize ctx pos slots) := by
  induction slots generalizing pos with
  | nil => trivial
  | cons slot rest ih =>
    obtain ⟨⟨words, filled, emitted⟩, later⟩ := stable
    have size : slot.size = words.length := by simp [Slot.size, filled]
    refine ⟨⟨words, filled, ?_⟩, ih later⟩
    rw [size, Statement.emit_again]
    exact emitted

theorem refresh_again (optimize : Bool) (ctx : Context) (pos : Nat) (slots : List Slot) :
    refresh optimize ctx pos (refresh optimize ctx pos slots) = refresh optimize ctx pos slots := by
  induction slots generalizing pos with
  | nil => rfl
  | cons slot rest ih =>
    simp only [refresh, size_words, Statement.emit_again, ih]

theorem position_replace (done rest : List Slot) (slot : Slot) (statement : Statement) :
    position ((⟨statement, slot.words⟩ :: done).reverse ++ rest) =
      position (done.reverse ++ slot :: rest) := by
  apply position_congr
  simp

theorem stable_of_passFrom {optimize : Bool} {symbols : Symbols} {finalize : Bool}
    {done rest : List Slot} {pos : Nat} {changed : Bool}
    (unchanged : (passFrom optimize symbols finalize done pos changed rest).outcome = .ok false) :
    changed = false ∧
    Stable optimize ⟨symbols, position (done.reverse ++ rest), finalize⟩ pos rest ∧
    (passFrom optimize symbols finalize done pos changed rest).slots =
      done.reverse ++
        refresh optimize ⟨symbols, position (done.reverse ++ rest), finalize⟩ pos rest := by
  -- The words before the slot are those of this pass, the words after it those of the last one;
  -- as they agree, the context stays the one of the whole list.
  induction rest generalizing done pos changed with
  | nil =>
    have steady : changed = false := by simpa [passFrom] using unchanged
    exact ⟨steady, trivial, by simp [passFrom, refresh]⟩
  | cons slot rest ih =>
    have here : positionAmong done (slot :: rest) = position (done.reverse ++ slot :: rest) :=
      funext (positionAmong_eq done (slot :: rest))
    simp only [passFrom, here] at unchanged ⊢
    split at unchanged
    · simp at unchanged
    · rename_i words emitted
      simp only
      obtain ⟨steady, stable, slots⟩ := ih unchanged
      have kept : changed = false ∧ slot.words = some words := by
        simpa [Bool.or_eq_false_iff] using steady
      obtain ⟨rfl, filled⟩ := kept
      have size : slot.size = words.length := by simp [Slot.size, filled]
      rw [← filled, position_replace] at stable slots
      simp only [filled, Option.map_some] at emitted stable slots
      refine ⟨rfl, ⟨⟨words, filled, emitted⟩, by rwa [size]⟩, ?_⟩
      rw [filled, Option.map_some, slots]
      simp [refresh, size, filled]

theorem passFrom_of_stable {optimize : Bool} {symbols : Symbols} {finalize : Bool}
    {done rest : List Slot} {pos : Nat}
    (stable : Stable optimize ⟨symbols, position (done.reverse ++ rest), finalize⟩ pos rest) :
    (passFrom optimize symbols finalize done pos false rest).outcome = .ok false := by
  induction rest generalizing done pos with
  | nil => rfl
  | cons slot rest ih =>
    have here : positionAmong done (slot :: rest) = position (done.reverse ++ slot :: rest) :=
      funext (positionAmong_eq done (slot :: rest))
    obtain ⟨⟨words, filled, emitted⟩, later⟩ := stable
    have size : slot.size = words.length := by simp [Slot.size, filled]
    simp only [passFrom, here, filled, Option.map_some, emitted, bne_self_eq_false, Bool.or_self]
    apply ih
    rw [← filled, position_replace, ← size]
    exact later

/-- The slots that a finalizing pass leaves as they are. -/
structure Fixed (optimize : Bool) (symbols : Symbols) (slots : List Slot) : Prop where
  stable : Stable optimize ⟨symbols, position slots, true⟩ 0 slots
  refreshed : refresh optimize ⟨symbols, position slots, true⟩ 0 slots = slots

theorem fixed_of_pass {optimize : Bool} {symbols : Symbols} {slots : List Slot}
    (unchanged : (pass optimize symbols true slots).outcome = .ok false) :
    Fixed optimize symbols (pass optimize symbols true slots).slots := by
  obtain ⟨_, stable, left⟩ := stable_of_passFrom unchanged
  simp only [List.reverse_nil, List.nil_append] at stable left
  have same : position (pass optimize symbols true slots).slots = position slots := by
    apply position_congr
    rw [pass, left, map_words_refresh]
  constructor
  · rw [same, pass, left]
    exact stable_refresh stable
  · rw [same, pass, left, refresh_again]

theorem Fixed.pass {optimize : Bool} {symbols : Symbols} {slots : List Slot}
    (fixed : Fixed optimize symbols slots) :
    (pass optimize symbols true slots).outcome = .ok false ∧
    (pass optimize symbols true slots).slots = slots := by
  have unchanged : (Layout.pass optimize symbols true slots).outcome = .ok false :=
    @passFrom_of_stable optimize symbols true [] slots 0 fixed.stable
  refine ⟨unchanged, ?_⟩
  obtain ⟨_, _, left⟩ := stable_of_passFrom unchanged
  rw [Layout.pass, left]
  exact fixed.refreshed

theorem fixed_of_settle {optimize : Bool} {symbols : Symbols} {count left : Nat}
    {slots : List Slot} (settled : (settle optimize symbols count left slots).failure = none) :
    Fixed optimize symbols (settle optimize symbols count left slots).slots := by
  induction left generalizing count slots with
  | zero => simp [settle] at settled
  | succ left ih =>
    simp only [settle] at settled ⊢
    split at settled
    · simp at settled
    · rename_i changed outcome
      cases changed with
      | true =>
        simp only [↓reduceIte] at settled ⊢
        exact ih settled
      | false => exact fixed_of_pass outcome

theorem fixed_of_run {o : Options} {symbols : Symbols} {statements : List Statement}
    (settled : (run o symbols statements).failure = none) :
    Fixed o.optimize symbols (run o symbols statements).slots := by
  simp only [run] at settled ⊢
  split at settled
  · simp at settled
  · exact fixed_of_settle settled

/-- The slots after so many further finalizing passes. -/
def again (optimize : Bool) (symbols : Symbols) : Nat → List Slot → List Slot
  | 0, slots => slots
  | n + 1, slots => again optimize symbols n (pass optimize symbols true slots).slots

theorem Fixed.again {optimize : Bool} {symbols : Symbols} {slots : List Slot}
    (fixed : Fixed optimize symbols slots) (n : Nat) : again optimize symbols n slots = slots := by
  induction n with
  | zero => rfl
  | succ n ih => rw [Layout.again, fixed.pass.2, ih]

end WordAsm.Layout

namespace WordAsm

theorem assemble_of_settled {o : Options} {file source : String}
    (complete : (preprocess o file source).2 = none)
    (settled : (Layout.run o (preprocess o file source).1.symbols
      (preprocess o file source).1.statements.reverse).failure = none) :
    (assemble o file source).outcome = .ok (Program.ofSlots (preprocess o file source).1.symbols
      (Layout.run o (preprocess o file source).1.symbols
        (preprocess o file source).1.statements.reverse).slots) := by
  have read : preprocess o file source = ((preprocess o file source).1, none) :=
    Prod.ext rfl complete
  rw [assemble, read]
  simp only [settled]

/-- A source that can be assembled has been laid out for good: whatever number of finalizing
passes follows, the next one changes nothing, the words are those of the settled layout, and the
program is the one that was assembled. -/
theorem settled_layout_stays (o : Options) (file source : String)
    (complete : (preprocess o file source).2 = none)
    (settled : (Layout.run o (preprocess o file source).1.symbols
      (preprocess o file source).1.statements.reverse).failure = none) (n : Nat) :
    let work := (preprocess o file source).1
    let slots := (Layout.run o work.symbols work.statements.reverse).slots
    let later := Layout.again o.optimize work.symbols n slots
    (Layout.pass o.optimize work.symbols true later).outcome = .ok false ∧
    later.map Slot.words = slots.map Slot.words ∧
    (assemble o file source).outcome = .ok (Program.ofSlots work.symbols later) := by
  intro work slots later
  have fixed : Layout.Fixed o.optimize work.symbols slots := Layout.fixed_of_run settled
  have same : later = slots := fixed.again n
  rw [same]
  exact ⟨fixed.pass.1, rfl, assemble_of_settled complete settled⟩

-- The label is at 32 for the first finalizing pass, which latches the operand of the addition,
-- and at 31 once the jump is replaced: the addition keeps a word that it no longer needs.
theorem settled_layout_stays_jump :
    let work := (preprocess {} "jump" "SET PC, end\n.fill 30\n:end ADD A, end").1
    let slots := (Layout.run {} work.symbols work.statements.reverse).slots
    let later := Layout.again true work.symbols 2 slots
    (Layout.pass true work.symbols true later).outcome = .ok false ∧
    later.map Slot.words = slots.map Slot.words ∧
    (assemble {} "jump" "SET PC, end\n.fill 30\n:end ADD A, end").outcome =
      .ok (Program.ofSlots work.symbols later) :=
  settled_layout_stays {} "jump" "SET PC, end\n.fill 30\n:end ADD A, end" (by decide +kernel)
    (by decide +kernel) 2

end WordAsm
