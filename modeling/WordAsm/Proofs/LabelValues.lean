import WordAsm.Proofs.InstructionDecoding
import WordAsm.Proofs.LayoutFixedPoint
import WordAsm.Proofs.PreprocessStep

/-!
The words of a program and its labels. Every pass computes words from positions that may be out
of date at its end; but a program is a layout that has settled, so each of its lines holds what
its statement emits at the final positions, and these are the values of the labels it lists.
-/
namespace WordAsm

namespace Layout

section

variable {β : Type} {f : Statement → β} {optimize : Bool}

theorem map_passFrom
    (kept : ∀ ctx pos old st, f (st.emit optimize ctx pos old).statement = f st)
    (symbols : Symbols) (finalize : Bool) (done : List Slot) (pos : Nat) (changed : Bool)
    (rest : List Slot) :
    (passFrom optimize symbols finalize done pos changed rest).slots.map (fun s => f s.statement) =
      (done.reverse ++ rest).map fun s => f s.statement := by
  induction rest generalizing done pos changed with
  | nil => simp [passFrom]
  | cons slot rest ih =>
    simp only [passFrom]
    split
    · -- The pass stops here and leaves the rest as it is.
      simp [kept]
    · simp [ih, kept]

theorem map_settle
    (kept : ∀ ctx pos old st, f (st.emit optimize ctx pos old).statement = f st)
    (symbols : Symbols) (count left : Nat) (slots : List Slot) :
    (settle optimize symbols count left slots).slots.map (fun s => f s.statement) =
      slots.map fun s => f s.statement := by
  induction left generalizing count slots with
  | zero => rfl
  | succ left ih =>
    have passed := map_passFrom kept symbols true [] 0 false slots
    simp only [settle, pass]
    split
    · exact passed
    · split
      · exact (ih _ _).trans passed
      · exact passed

theorem map_run {o : Options}
    (kept : ∀ ctx pos old st, f (st.emit o.optimize ctx pos old).statement = f st)
    (symbols : Symbols) (statements : List Statement) :
    (run o symbols statements).slots.map (fun s => f s.statement) = statements.map f := by
  have passed : (pass o.optimize symbols false (start statements)).slots.map
      (fun s => f s.statement) = statements.map f := by
    rw [pass, map_passFrom kept]
    simp [start, Function.comp_def]
  simp only [run]
  split
  · exact passed
  · exact (map_settle kept symbols 0 o.passes _).trans passed

end

end Layout

def Statement.replacement? (st : Statement) : Option BasicOperation :=
  match st.body with
  | .instruction (.basic _ used) => used
  | _ => none

theorem Statement.replacement_emit (ctx : Context) (position : Int) (old : Option Nat)
    (st : Statement) :
    (st.emit false ctx position old).statement.replacement? = st.replacement? := by
  obtain ⟨line, body⟩ := st
  cases body with
  | instruction i => cases i <;> rfl
  | _ => rfl

theorem Statement.replacement_fresh (st : Statement) : st.fresh.replacement? = none := by
  obtain ⟨line, body⟩ := st
  cases body with
  | instruction i => cases i <;> rfl
  | _ => rfl

section

variable {ctx : Context} {line : Line}

theorem Instruction.encode_of_emit {optimize : Bool} {position : Int} {i : Instruction}
    {words : List UInt16} (emitted : (i.emit optimize ctx line position).1 = .ok words)
    (kept : ∀ written sub, (i.emit optimize ctx line position).2.1 ≠ basic written (some sub)) :
    i.encode ctx line = .ok words := by
  cases i with
  | special written => exact emitted
  | basic written used =>
    cases optimize with
    | false => exact emitted
    | true =>
      rw [emit, emitBasic_optimized] at emitted kept
      revert emitted kept
      split
      · intro emitted kept
        cases emitted
      · intro emitted kept
        exact emitted
      · intro emitted kept
        exact absurd rfl (kept _ _)

/-- The cells of data items where symbols have values by `ρ`. -/
def DataItem.Hold (ρ : (Register → Option Int64) → Valuation) : List DataItem → List Cell → Prop
  | [], cells => cells = []
  | string words isPacked _ :: rest, cells =>
    ∃ later, cells = words.map (⟨·, isPacked⟩) ++ later ∧ Hold ρ rest later
  | value tree _ _ :: rest, cells =>
    ∃ v later, tree.HasValue ρ v ∧ cells = ⟨lowWord v, false⟩ :: later ∧ Hold ρ rest later

theorem DataItem.hold_of_emitAll {items : List DataItem} {cells : List Cell}
    (final : ctx.finalize = true) (emitted : (emitAll ctx line items).1 = .ok cells) :
    Hold (ctx.valuation line) items cells := by
  induction items generalizing cells with
  | nil =>
    cases emitted
    rfl
  | cons item rest ih =>
    rcases first : item.emit ctx line with ⟨_ | own, left⟩
    · simp [emitAll, first] at emitted
    rcases later : emitAll ctx line rest with ⟨_ | more, rest'⟩
    · simp [emitAll, first, later] at emitted
    obtain rfl : own ++ more = cells := by simpa [emitAll, first, later] using emitted
    have below : Hold (ctx.valuation line) rest more := ih (by rw [later])
    cases item with
    | string words isPacked raw =>
      cases first
      exact ⟨more, rfl, below⟩
    | value tree last raw =>
      cases evaluated : ctx.evaluate line tree with
      | error f => simp [emit, evaluated] at first
      | ok e =>
        cases e with
        | number n g =>
          rw [emit, evaluated] at first
          cases first
          exact ⟨n, more, Context.hasValue_of_evaluate evaluated, rfl, below⟩
        | _ => simp [emit, evaluated, final] at first

theorem Fill.value_of_evaluate {tree e : Expr} {v : Int64} (final : ctx.finalize = true)
    (evaluated : evaluate ctx line tree = .ok (v, e)) : tree.HasValue (ctx.valuation line) v := by
  unfold evaluate at evaluated
  split at evaluated
  · cases evaluated
  · rename_i known
    split at evaluated
    · cases evaluated
      exact Context.hasValue_of_evaluate known
    · simp [final] at evaluated

theorem Fill.words_of_emit {old : Option Nat} {f : Fill} {words : List UInt16} {tree : Expr}
    (final : ctx.finalize = true) (emitted : Statement.stored (f.emit ctx line old).1 = .ok words)
    (valued : f.value = some tree) :
    ∃ v, tree.HasValue (ctx.valuation line) v ∧ ∀ w ∈ words, w = lowWord v := by
  obtain ⟨given, encoded, rfl⟩ := Statement.stored_ok emitted
  obtain ⟨n, _, word, _, _, rfl, value⟩ := emit_ok encoded
  obtain ⟨v, _, evaluated, rfl⟩ := value tree valued
  refine ⟨v, value_of_evaluate final evaluated, ?_⟩
  intro w member
  exact (List.mem_replicate.1 member).2

theorem Align.dvd_size {boundary : Nat} (positive : 0 < boundary) (position : Int)
    (old : Option Nat) : (boundary : Int) ∣ position + size ctx old boundary position := by
  have next : (boundary : Int) ∣ position + gap boundary position := by
    have nonneg := Int.emod_nonneg (-position) (Int.ofNat_ne_zero.2 (Nat.ne_of_gt positive))
    have whole := Int.emod_add_mul_ediv (-position) boundary
    refine ⟨-(-position / boundary), ?_⟩
    rw [gap, Int.toNat_of_nonneg nonneg, Int.mul_neg]
    omega
  have further (n k : Nat) (next : (boundary : Int) ∣ position + n) :
      (boundary : Int) ∣ position + (n + k * boundary : Nat) := by
    rw [Int.natCast_add, ← Int.add_assoc, Int.natCast_mul]
    exact Int.dvd_add next (Int.dvd_mul_left _ _)
  unfold size
  dsimp only
  split
  · split
    · exact further _ _ next
    · exact next
  · exact next

theorem Align.words_of_emit {position : Int} {old : Option Nat} {a : Align} {words : List UInt16}
    (final : ctx.finalize = true)
    (emitted : Statement.stored (a.emit ctx line position old).1 = .ok words) :
    ∃ b, a.boundary.HasValue (ctx.valuation line) b ∧ 0 < b.toInt ∧
      b.toInt ∣ position + words.length := by
  obtain ⟨given, encoded, rfl⟩ := Statement.stored_ok emitted
  obtain ⟨n, g, evaluated, positive, rfl⟩ := emit_ok final encoded
  refine ⟨n, Context.hasValue_of_evaluate evaluated, positive, ?_⟩
  have boundary : (n.toInt.toNat : Int) = n.toInt := Int.toNat_of_nonneg (Int.le_of_lt positive)
  have even := @dvd_size ctx n.toInt.toNat (by omega) position old
  rw [boundary] at even
  rwa [Option.getD_some, List.length_replicate]

end

theorem Operand.fresh_of_read {s : Symbols} {line : Line} {token : String} {o : Operand}
    (read : Operand.read s line token = .ok o) : o.fresh = o := by
  unfold Operand.read at read
  dsimp only at read
  split at read
  · cases read
    rfl
  · split at read
    · cases read
      rfl
    · cases read

theorem Instruction.fresh_of_read {s : Symbols} {line : Line} {i : Instruction}
    (read : Instruction.read s line = .ok i) : i.fresh = i := by
  unfold Instruction.read at read
  split at read
  · cases read
  · split at read
    · obtain ⟨first, readA, read⟩ := bind_ok read
      obtain ⟨second, readB, same⟩ := bind_ok read
      cases same
      simp only [fresh, BasicOperation.fresh, Operand.fresh_of_read readA,
        Operand.fresh_of_read readB]
    · obtain ⟨first, readA, same⟩ := bind_ok read
      cases same
      simp only [fresh, SpecialOperation.fresh, Operand.fresh_of_read readA]
    · cases read

theorem DataItem.fresh_of_readAll {s : Symbols} {line : Line} {tokens : List String}
    {items : List DataItem} (read : readAll s line tokens = .ok items) :
    items.map fresh = items := by
  induction tokens generalizing items with
  | nil =>
    cases read
    rfl
  | cons token rest ih =>
    obtain ⟨item, first, read⟩ := bind_ok read
    obtain ⟨later, below, same⟩ := bind_ok read
    cases same
    have unseen : item.fresh = item := by
      unfold DataItem.read at first
      split at first
      · split at first <;> cases first
        rfl
      · split at first <;> cases first
        rfl
    rw [List.map_cons, unseen, ih below]

/-- What the words of a statement at a position have to be where symbols have values by `ρ`:
instructions that were not replaced decode to arguments that denote their operands, data and
filling consist of the values of their expressions, and alignment ends at a boundary. -/
def Statement.Holds (ρ : (Register → Option Int64) → Valuation) (position : Nat)
    (words : List UInt16) (st : Statement) : Prop :=
  match st.body with
  | .instruction i =>
    st.replacement? = none → ∃ d, decode? words = some d ∧ d.size = words.length ∧ i.Denotes ρ d
  | .data d => ∃ cells, DataItem.Hold ρ d.items cells ∧ words = Data.words d.isBytes cells
  | .fill f => ∀ tree, f.value = some tree → ∃ v, tree.HasValue ρ v ∧ ∀ w ∈ words, w = lowWord v
  | .align a =>
    ∃ b, a.boundary.HasValue ρ b ∧ 0 < b.toInt ∧ b.toInt ∣ (position : Int) + words.length

namespace Statement

theorem body_of_read {s : Symbols} {st : Statement}
    (read : Statement.read s st.line = .ok st) :
    match st.body with
    | .instruction i => Instruction.read s st.line = .ok i
    | .data d => Data.read s st.line = .ok d
    | .fill f => Fill.read s st.line = .ok f
    | .align a => Align.read s st.line = .ok a := by
  obtain ⟨line, body⟩ := st
  obtain ⟨body', read, same⟩ := bind_ok read
  cases same
  unfold Body.read at read
  split at read
  all_goals
    obtain ⟨_, read, same⟩ := bind_ok read
    cases same
    exact read

theorem fresh_of_isRead {st : Statement} (read : st.IsRead) : st.fresh = st := by
  obtain ⟨s, read⟩ := read
  have read := body_of_read read
  obtain ⟨line, body⟩ := st
  cases body with
  | instruction i => simp only [fresh, Body.fresh, Instruction.fresh_of_read read]
  | data d =>
    have unseen : d.items.map DataItem.fresh = d.items := by
      obtain ⟨items, readAll, same⟩ := bind_ok read
      injection same with same
      rw [← same]
      exact DataItem.fresh_of_readAll readAll
    simp only [fresh, Body.fresh, unseen]
  | fill f =>
    have unseen : f.last = [] := by
      dsimp only at read
      unfold Fill.read at read
      split at read
      · obtain ⟨_, _, same⟩ := bind_ok read
        cases same
        rfl
      · obtain ⟨_, _, read⟩ := bind_ok read
        obtain ⟨_, _, same⟩ := bind_ok read
        cases same
        rfl
      · cases read
    simp only [fresh, Body.fresh, ← unseen]
  | align a =>
    obtain ⟨boundary, last⟩ := a
    have unseen : last = boundary := by
      dsimp only at read
      unfold Align.read at read
      split at read
      · obtain ⟨_, _, same⟩ := bind_ok read
        cases same
        rfl
      · cases read
    rw [unseen]
    rfl

theorem holds_of_emit {optimize : Bool} {ctx : Context} {position : Nat} {old : Option Nat}
    {st : Statement} {words : List UInt16} (read : st.fresh.IsRead) (final : ctx.finalize = true)
    (emitted : (st.emit optimize ctx position old).outcome = .ok words)
    (left : (st.emit optimize ctx position old).statement = st) :
    st.Holds (ctx.valuation st.line) position words := by
  obtain ⟨line, body⟩ := st
  cases body with
  | instruction i =>
    intro kept
    obtain ⟨s, read⟩ := read
    have wellRead := (Instruction.wellRead_of_read (body_of_read read)).2
    have same : (i.emit optimize ctx line position).2.1 = i := by simpa [emit] using left
    have encoded : i.encode ctx line = .ok words := by
      rw [outcome_instruction] at emitted
      apply Instruction.encode_of_emit emitted
      intro written sub replaced
      rw [← same, replaced] at kept
      cases kept
    have decoded := Instruction.decode_encode wellRead final encoded []
    rwa [List.append_nil] at decoded
  | data d =>
    obtain ⟨given, encoded, rfl⟩ := stored_ok emitted
    obtain ⟨cells, items, rfl⟩ := Data.emit_ok encoded
    exact ⟨cells, DataItem.hold_of_emitAll final items, rfl⟩
  | fill f =>
    intro tree valued
    exact Fill.words_of_emit final emitted valued
  | align a => exact Align.words_of_emit final emitted

end Statement

namespace Program

theorem list_emits {optimize : Bool} {ctx : Context} {pos n : Nat} {slots : List Slot} {slot : Slot}
    {listed : Listed} (stable : Layout.Stable optimize ctx pos slots)
    (refreshed : Layout.refresh optimize ctx pos slots = slots) (here : slots[n]? = some slot)
    (line : (list pos slots)[n]? = some listed) :
    (slot.statement.emit optimize ctx listed.position (some listed.words.length)).outcome =
        .ok listed.words ∧
      (slot.statement.emit optimize ctx listed.position (some listed.words.length)).statement =
        slot.statement := by
  induction slots generalizing pos n with
  | nil => cases here
  | cons first rest ih =>
    obtain ⟨⟨words, filled, emitted⟩, later⟩ := stable
    simp only [Layout.refresh, List.cons.injEq] at refreshed
    cases n with
    | zero =>
      cases here
      cases line
      have size : slot.size = words.length := by simp [Slot.size, filled]
      have same := congrArg Slot.statement refreshed.1
      rw [size] at same
      simp only [filled, Option.getD_some]
      exact ⟨emitted, same⟩
    | succ n => exact ih later refreshed.2 here line

theorem length_list (pos : Nat) (slots : List Slot) : (list pos slots).length = slots.length := by
  induction slots generalizing pos with
  | nil => rfl
  | cons slot rest ih => rw [list, List.length_cons, List.length_cons, ih]

theorem lookup_of_mem {entries : List (String × Int64)} {key : String} {v : Int64}
    (distinct : entries.Pairwise fun a b => a.1 ≠ b.1) (member : (key, v) ∈ entries) :
    entries.lookup key = some v := by
  obtain ⟨before, after, rfl⟩ := List.append_of_mem member
  refine List.lookup_eq_some_iff.2 ⟨before, after, rfl, ?_⟩
  intro entry earlier
  have differs := (List.pairwise_append.1 distinct).2.2 entry earlier (key, v) (by simp)
  exact bne_iff_ne.2 differs.symm

theorem distinct_labels (symbols : Symbols) (slots : List Slot) :
    (ofSlots symbols slots).labels.Pairwise fun a b => a.1 ≠ b.1 := by
  have symm : ∀ {a b : String × Int64}, a.1 ≠ b.1 → b.1 ≠ a.1 := fun differs => differs.symm
  rw [ofSlots, (List.mergeSort_perm _ _).pairwise_iff symm, placed, List.pairwise_filterMap]
  refine List.Pairwise.imp ?_ Std.TreeMap.distinct_keys_toList
  rintro ⟨k, l⟩ ⟨k', l'⟩ differs entry first entry' second
  obtain ⟨_, _, rfl⟩ := Option.map_eq_some_iff.1 first
  obtain ⟨_, _, rfl⟩ := Option.map_eq_some_iff.1 second
  intro same
  exact differs (by simp [show k = k' from same])

theorem lookup_labels {symbols : Symbols} {slots : List Slot} {key : String} {label : Label}
    (known : symbols.labels[key]? = some label) :
    (ofSlots symbols slots).labels.lookup key = label.placed (Layout.position slots) := by
  have mem_labels (v : Int64) : (key, v) ∈ (ofSlots symbols slots).labels ↔
      label.placed (Layout.position slots) = some v := by
    simp only [ofSlots, List.mem_mergeSort, placed, List.mem_filterMap, Prod.exists,
      Std.TreeMap.mem_toList_iff_getElem?_eq_some, Option.map_eq_some_iff, Prod.mk.injEq]
    constructor
    · rintro ⟨key', label', known', pos, here, rfl, value⟩
      rw [known] at known'
      cases known'
      simp [Label.placed, here, value]
    · intro found
      obtain ⟨pos, here, value⟩ := Option.map_eq_some_iff.1 found
      exact ⟨key, label, known, pos, here, rfl, value⟩
  -- A label without a position is not listed, and no other label has its key.
  cases found : label.placed (Layout.position slots) with
  | some v => exact lookup_of_mem (distinct_labels symbols slots) ((mem_labels v).2 found)
  | none =>
    refine List.lookup_eq_none_iff.2 ?_
    rintro ⟨key', v⟩ member
    refine bne_iff_ne.2 ?_
    rintro rfl
    rw [(mem_labels v).1 member] at found
    cases found

theorem valuation_labels (symbols : Symbols) (slots : List Slot) (line : Line) :
    symbols.valuation line (fun key _ => (ofSlots symbols slots).labels.lookup key) =
      Context.valuation ⟨symbols, Layout.position slots, true⟩ line := by
  have listed (name : String) : ((symbols.find? name line.global line.scope).bind fun found =>
      (ofSlots symbols slots).labels.lookup found.1) =
      (symbols.find? name line.global line.scope).bind fun found =>
        found.2.placed (Layout.position slots) := by
    cases found : symbols.find? name line.global line.scope with
    | none => rfl
    | some entry =>
      obtain ⟨key, _, tried⟩ := List.exists_of_findSome?_eq_some found
      obtain ⟨label, known, rfl⟩ := Option.map_eq_some_iff.1 tried
      exact lookup_labels known
  funext registers
  simp only [Context.valuation, Symbols.valuation, listed]

end Program

theorem assemble_ok {o : Options} {file source : String} {p : Program}
    (assembled : (assemble o file source).outcome = .ok p) :
    let work := (preprocess o file source).1
    let settled := Layout.run o work.symbols work.statements.reverse
    settled.failure = none ∧ p = Program.ofSlots work.symbols settled.slots := by
  unfold assemble at assembled
  rcases read : preprocess o file source with ⟨work, _ | failure⟩
  · rw [read] at assembled
    dsimp only at assembled
    split at assembled
    · cases assembled
    · rename_i settled
      cases assembled
      exact ⟨settled, rfl⟩
  · rw [read] at assembled
    cases assembled

/-- No word of a program goes back to a label at another position than the one it lists: each
line holds what its statement, as it was read, stands for under the listed labels. -/
theorem program_holds_labels (o : Options) (file source : String) (p : Program)
    (assembled : (assemble o file source).outcome = .ok p) :
    let work := (preprocess o file source).1
    let slots := (Layout.run o work.symbols work.statements.reverse).slots
    slots.map (fun slot => slot.statement.fresh) = work.statements.reverse ∧
    (∀ st ∈ work.statements, st.IsRead) ∧
    p.lines.length = slots.length ∧
    ∀ (n : Nat) (slot : Slot) (listed : Listed),
      slots[n]? = some slot → p.lines[n]? = some listed →
      (o.optimize = false → slot.statement.replacement? = none) ∧
      slot.statement.Holds (work.symbols.valuation slot.statement.line
        fun key _ => p.labels.lookup key) listed.position listed.words := by
  intro work slots
  obtain ⟨settled, rfl⟩ := assemble_ok assembled
  have fixed : Layout.Fixed o.optimize work.symbols slots := Layout.fixed_of_run settled
  have reads := statements_isRead o file source
  have fresh : slots.map (fun slot => slot.statement.fresh) = work.statements.reverse := by
    rw [Layout.map_run (Statement.fresh_emit o.optimize)]
    refine (List.map_congr_left ?_).trans (List.map_id _)
    intro st member
    exact Statement.fresh_of_isRead (reads st (List.mem_reverse.1 member))
  refine ⟨fresh, reads, Program.length_list 0 slots, ?_⟩
  intro n slot listed here line
  constructor
  · intro plain
    have kept := Layout.map_run (o := o) (f := Statement.replacement?)
      (plain ▸ Statement.replacement_emit) work.symbols work.statements.reverse
    have member : slot.statement.replacement? ∈ slots.map fun s => s.statement.replacement? :=
      List.mem_map_of_mem (List.mem_of_getElem? here)
    rw [kept] at member
    obtain ⟨st, member, same⟩ := List.mem_map.1 member
    rw [← same, ← Statement.fresh_of_isRead (reads st (List.mem_reverse.1 member))]
    exact Statement.replacement_fresh st
  · obtain ⟨emitted, left⟩ := Program.list_emits fixed.stable fixed.refreshed here line
    have read : slot.statement.fresh.IsRead := by
      apply reads
      rw [← List.mem_reverse, ← fresh]
      exact List.mem_map_of_mem (List.mem_of_getElem? here)
    rw [Program.valuation_labels]
    exact Statement.holds_of_emit read rfl emitted left

-- The provisional pass puts the label at 4, as it takes two words for a jump to an unknown
-- address; the filling before the label and the data behind it end up with 3.
theorem program_holds_labels_moved :
    let source := "SET PC, end\n.fill 2, mid\n:mid .align 8\n:end DAT mid-1"
    let work := (preprocess {} "moved" source).1
    let slots := (Layout.run {} work.symbols work.statements.reverse).slots
    let p := Program.ofSlots work.symbols slots
    p.words = [0xA1C1, 3, 3, 0, 0, 0, 0, 0, 2] ∧
    slots.map (fun slot => slot.statement.fresh) = work.statements.reverse ∧
    (∀ st ∈ work.statements, st.IsRead) ∧
    p.lines.length = slots.length ∧
    ∀ (n : Nat) (slot : Slot) (listed : Listed),
      slots[n]? = some slot → p.lines[n]? = some listed →
      (true = false → slot.statement.replacement? = none) ∧
      slot.statement.Holds (work.symbols.valuation slot.statement.line
        fun key _ => p.labels.lookup key) listed.position listed.words := by
  have evaluated :
      let source := "SET PC, end\n.fill 2, mid\n:mid .align 8\n:end DAT mid-1"
      let work := (preprocess {} "moved" source).1
      let settled := Layout.run {} work.symbols work.statements.reverse
      (preprocess {} "moved" source).2 = none ∧
      settled.failure = none ∧
      (Program.ofSlots work.symbols settled.slots).words = [0xA1C1, 3, 3, 0, 0, 0, 0, 0, 2] := by
    decide +kernel
  obtain ⟨complete, settled, words⟩ := evaluated
  exact ⟨words, program_holds_labels {} "moved" _ _ (assemble_of_settled complete settled)⟩

end WordAsm
