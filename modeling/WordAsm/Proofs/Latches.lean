import Mathlib.Algebra.GroupWithZero.Nat
import Mathlib.Data.List.Forall2
import WordAsm.Proofs.LabelValues

/-!
Latches and lengths. How many words an instruction has in a finalizing pass is known from its
operands as they were read and from their latches. Latches are set and never cleared, so without
the optimizer no statement gets shorter from one finalizing pass to the next.
-/
namespace WordAsm

section

variable {α : Type} {f : α → Nat} {l l' : List α}

theorem sum_mono (least : List.Forall₂ (fun a a' => f a ≤ f a') l l') :
    (l.map f).sum ≤ (l'.map f).sum := by
  induction least with
  | nil => exact Nat.le_refl _
  | cons first _ ih =>
    simp only [List.map_cons, List.sum_cons]
    omega

theorem eq_of_sum (least : List.Forall₂ (fun a a' => f a ≤ f a') l l')
    (same : (l'.map f).sum = (l.map f).sum) : List.Forall₂ (fun a a' => f a' = f a) l l' := by
  induction least with
  | nil => exact .nil
  | cons first rest ih =>
    have others := sum_mono rest
    simp only [List.map_cons, List.sum_cons] at same
    exact .cons (by omega) (ih (by omega))

end

namespace Operand

/-- The number of words that follow for an operand as a finalizing pass leaves it. -/
def room : Operand → Nat
  | fixed .. => 0
  | expression raw tree _ latched =>
    match firstRegister? tree with
    | some _ => if isBracketed raw tree && !tree.isSymbol then 1 else 0
    | none => if isBracketed raw tree || latched then 1 else 0

theorem room_congr {o o' : Operand} (same : o'.fresh = o.fresh)
    (latched : o'.isLatched = o.isLatched) : o'.room = o.room := by
  cases o with
  | fixed code raw =>
    cases o' with
    | fixed code' raw' => rfl
    | expression => cases same
  | expression raw tree last latch =>
    cases o' with
    | fixed => cases same
    | expression raw' tree' last' latch' =>
      cases same
      cases latched
      rfl

theorem room_mono {o o' : Operand} (same : o'.fresh = o.fresh)
    (latched : o.isLatched = true → o'.isLatched = true) : o.room ≤ o'.room := by
  by_cases equal : o'.isLatched = o.isLatched
  · exact Nat.le_of_eq (room_congr same equal).symm
  · cases o with
    | fixed => exact Nat.zero_le _
    | expression raw tree last latch =>
      cases o' with
      | fixed => cases same
      | expression raw' tree' last' latch' =>
        cases same
        cases latch with
        | true => exact absurd (latched rfl) equal
        | false =>
          simp only [room]
          split
          · exact Nat.le_refl _
          · split
            · rename_i bracketed
              simp_all
            · exact Nat.zero_le _

theorem isBracketed_evaluate {ctx : Context} {line : Line} {raw : String} {tree e : Expr}
    (evaluated : ctx.evaluate line tree = .ok e) : isBracketed raw e = isBracketed raw tree := by
  rw [isBracketed, isBracketed, Expr.isGrouped_simplify (Context.evaluate_ok evaluated)]

theorem literalField_cases (tree : Expr) (latched : Bool) :
    literalField tree latched = Field.nextWord ∨
      latched = false ∧ Field.hasNextWord (literalField tree latched) = false := by
  unfold literalField
  split
  · split
    · rename_i short
      simp only [Bool.and_eq_true, Bool.not_eq_true', decide_eq_true_eq] at short
      exact .inr ⟨short.1, (Field.literal_ok short.2).1⟩
    · exact .inl rfl
  · exact .inl rfl

theorem hasNextWord_register (r : Register) (direct : Bool) :
    Field.hasNextWord ((if direct then Field.indirect else Field.displaced) + r.index) =
      !direct := by
  cases r <;> cases direct <;> decide

section

variable {ctx : Context} {line : Line} {o left : Operand} {code : UInt16}

theorem isLatched_field (latched : o.isLatched = true) :
    (o.field ctx line).2.isLatched = true := by
  cases o with
  | fixed => exact latched
  | expression raw tree last latch =>
    cases latched
    simp only [field]
    split
    · rfl
    · split <;> rfl

theorem room_field (wellRead : o.WellRead) (final : ctx.finalize = true)
    (classified : o.field ctx line = (.ok code, left)) :
    left.room = if Field.hasNextWord code then 1 else 0 := by
  cases o with
  | fixed code' raw =>
    cases classified
    exact (Field.spelling_ok wellRead).1.length
  | expression raw tree last latched =>
    obtain ⟨e, evaluated, known, rfl⟩ := field_latched classified
    have bracketed := @isBracketed_evaluate ctx line raw tree e evaluated
    have first := Context.firstRegister_evaluate wellRead evaluated
    rcases fieldOf_cases known with ⟨grouped, none, rfl⟩ | ⟨grouped, name, r, named, _, rfl⟩ |
      ⟨plain, name, named, symbol, spelled⟩ | ⟨plain, none, rfl⟩
    · rw [bracketed] at grouped
      rw [first] at none
      simp only [room, none, grouped, Bool.true_or, if_true]
      rfl
    · rw [bracketed] at grouped
      rw [first] at named
      have direct := Context.isSymbol_evaluate evaluated named
      simp only [room, named, grouped, Bool.true_and, hasNextWord_register, direct]
    · rw [bracketed] at plain
      rw [first] at named
      have alone := (Field.spelling_ok spelled).1.length
      simp only [room, named, plain, Bool.false_and, Bool.false_eq_true, if_false]
      exact alone
    · rw [bracketed] at plain
      rw [first] at none
      simp only [room, none, plain, Bool.false_or, final, Bool.true_and]
      -- A short literal has no latch before the pass and gets none.
      rcases literalField_cases e latched with long | ⟨unlatched, short⟩
      · rw [long]
        simp only [beq_self_eq_true, Bool.or_true, if_true]
        rfl
      · have other : literalField e latched ≠ Field.nextWord := by
          intro long
          rw [long] at short
          cases short
        rw [short, unlatched]
        rw [unlatched] at other
        simp [other]

end

end Operand

/-- One pass later an operand is as it was read, and it has kept its latch. -/
structure Operand.Later (o o' : Operand) : Prop where
  fresh : o'.fresh = o.fresh
  latched : o.isLatched = true → o'.isLatched = true

theorem Operand.later_field (ctx : Context) (line : Line) (o : Operand) :
    Later o (o.field ctx line).2 :=
  ⟨o.fresh_field ctx line, isLatched_field⟩

theorem Operand.latched_toNat {o o' : Operand} (later : Later o o') :
    o.isLatched.toNat ≤ o'.isLatched.toNat := by
  cases latched : o.isLatched with
  | true => simp [later.latched latched]
  | false => simp

theorem Operand.sum_room_mono {operands operands' : List Operand}
    (later : List.Forall₂ Later operands operands') :
    (operands.map room).sum ≤ (operands'.map room).sum :=
  sum_mono (later.imp fun _ _ first => room_mono first.fresh first.latched)

theorem Operand.sum_room_congr {operands operands' : List Operand}
    (later : List.Forall₂ Later operands operands')
    (latches : (operands'.map fun o => o.isLatched.toNat).sum =
      (operands.map fun o => o.isLatched.toNat).sum) :
    (operands'.map room).sum = (operands.map room).sum := by
  have same := eq_of_sum (later.imp fun _ _ first => latched_toNat first) latches
  clear latches
  induction later with
  | nil => rfl
  | @cons o o' _ _ first _ ih =>
    obtain ⟨here, there⟩ := List.forall₂_cons.1 same
    have latched : o'.isLatched = o.isLatched := by
      cases before : o.isLatched <;> cases after : o'.isLatched <;> simp [before, after] at here ⊢
    rw [List.map_cons, List.map_cons, room_congr first.fresh latched, List.sum_cons, List.sum_cons,
      ih there]

theorem BasicOperation.later_fields (ctx : Context) (line : Line) (i : BasicOperation) :
    Operand.Later i.a (i.fields ctx line).2.a ∧ Operand.Later i.b (i.fields ctx line).2.b := by
  have first := i.a.later_field ctx line
  have second := i.b.later_field ctx line
  unfold fields
  rcases fieldA : i.a.field ctx line with ⟨_ | codeA, a⟩
  · rw [fieldA] at first
    exact ⟨first, rfl, id⟩
  · rw [fieldA] at first
    rcases fieldB : i.b.field ctx line with ⟨_ | codeB, b⟩ <;>
    · rw [fieldB] at second
      exact ⟨first, second⟩

namespace Instruction

def operands : Instruction → List Operand
  | basic written _ => [written.a, written.b]
  | special written => [written.a]

/-- The number of words after the instruction word. -/
def room (i : Instruction) : Nat := (i.operands.map Operand.room).sum

def latches (i : Instruction) : Nat := (i.operands.map fun o => o.isLatched.toNat).sum

theorem latches_le (i : Instruction) : i.latches ≤ 2 := by
  cases i with
  | basic written used =>
    have first := Bool.toNat_le written.a.isLatched
    have second := Bool.toNat_le written.b.isLatched
    simp only [latches, operands, List.map_cons, List.map_nil, List.sum_cons, List.sum_nil]
    omega
  | special written =>
    have first := Bool.toNat_le written.a.isLatched
    simp only [latches, operands, List.map_cons, List.map_nil, List.sum_cons, List.sum_nil]
    omega

theorem emit_operands (optimize : Bool) (ctx : Context) (line : Line) (position : Int)
    (i : Instruction) : (i.emit optimize ctx line position).2.1.operands =
      (i.emit false ctx line position).2.1.operands := by
  cases i with
  | special written => rfl
  | basic written used =>
    cases optimize with
    | false => rfl
    | true =>
      rw [emit, emit, emitBasic_plain, emitBasic_optimized]
      split <;> rfl

theorem later_emit (optimize : Bool) (ctx : Context) (line : Line) (position : Int)
    (i : Instruction) :
    List.Forall₂ Operand.Later i.operands (i.emit optimize ctx line position).2.1.operands := by
  rw [emit_operands]
  cases i with
  | special written =>
    have first := written.a.later_field ctx line
    simp only [emit, SpecialOperation.encode]
    rcases fieldA : written.a.field ctx line with ⟨_ | code, a⟩ <;>
    · rw [fieldA] at first
      exact .cons first .nil
  | basic written used =>
    obtain ⟨first, second⟩ := written.later_fields ctx line
    rw [emit, emitBasic_plain]
    exact .cons first (.cons second .nil)

theorem length_encode {ctx : Context} {line : Line} {i : Instruction} {words : List UInt16}
    (wellRead : i.WellRead) (final : ctx.finalize = true) (encoded : i.encode ctx line = .ok words)
    (optimize : Bool) (position : Int) :
    words.length = 1 + (i.emit optimize ctx line position).2.1.room := by
  rw [room, emit_operands]
  cases i with
  | special written =>
    obtain ⟨code, a, extra, fieldA, given, rfl⟩ := SpecialOperation.encode_ok encoded
    have length := (Operand.takes wellRead fieldA given).length
    rw [← Operand.room_field wellRead final fieldA] at length
    simp only [emit, SpecialOperation.encode, fieldA, operands, List.map_cons, List.map_nil,
      List.sum_cons, List.sum_nil, List.length_cons, length]
    omega
  | basic written used =>
    obtain ⟨codeA, a, codeB, b, extraA, extraB, fieldA, fieldB, givenA, givenB, rfl⟩ :=
      BasicOperation.encode_ok encoded
    have lengthA := (Operand.takes wellRead.1 fieldA givenA).length
    have lengthB := (Operand.takes wellRead.2 fieldB givenB).length
    rw [← Operand.room_field wellRead.1 final fieldA] at lengthA
    rw [← Operand.room_field wellRead.2 final fieldB] at lengthB
    simp only [emit, emitBasic_plain, BasicOperation.fields, fieldA, fieldB, operands,
      List.map_cons, List.map_nil, List.sum_cons, List.sum_nil, List.length_cons,
      List.length_append, lengthA, lengthB]
    omega

end Instruction

namespace DataItem

/-- Which of the cells of an item are whole words. -/
def marks : DataItem → List Bool
  | string words isPacked _ => words.map fun _ => isPacked
  | value .. => [false]

theorem marks_fresh (item : DataItem) : item.fresh.marks = item.marks := by cases item <;> rfl

theorem marks_emitAll {ctx : Context} {line : Line} {items : List DataItem} {cells : List Cell}
    (emitted : (emitAll ctx line items).1 = .ok cells) :
    cells.map Cell.isWhole = items.flatMap marks := by
  induction items generalizing cells with
  | nil =>
    cases emitted
    rfl
  | cons item rest ih =>
    rcases first : item.emit ctx line with ⟨_ | own, left⟩
    · simp [emitAll, first] at emitted
    rcases later : emitAll ctx line rest with ⟨_ | more, rest'⟩
    · simp [emitAll, first, later] at emitted
    obtain rfl : own ++ more = cells := by simpa [emitAll, first, later] using emitted
    have here : own.map Cell.isWhole = item.marks := by
      cases item with
      | string words isPacked raw =>
        cases first
        rw [marks, List.map_map]
        rfl
      | value tree last raw =>
        simp only [emit] at first
        split at first
        · cases first
        · split at first
          · cases first
            rfl
          · split at first <;> cases first
            rfl
    rw [List.map_append, List.flatMap_cons, here, ih (by rw [later])]

end DataItem

namespace Data

theorem length_pairCells {cells cells' : List Cell} {high high' : Option UInt16}
    (waiting : high.isSome = high'.isSome)
    (same : cells.map Cell.isWhole = cells'.map Cell.isWhole) :
    (pairCells high cells).length = (pairCells high' cells').length := by
  have half : (high.map highHalf).toList.length = (high'.map highHalf).toList.length := by
    cases high <;> cases high' <;> simp_all
  induction cells generalizing cells' high high' with
  | nil =>
    cases cells' with
    | nil => exact half
    | cons => cases same
  | cons cell rest ih =>
    cases cells' with
    | nil => cases same
    | cons cell' rest' =>
      simp only [List.map_cons, List.cons.injEq] at same
      obtain ⟨whole, same⟩ := same
      simp only [pairCells, ← whole]
      split
      · simp only [List.length_append, List.length_cons, half, ih rfl same rfl]
      · cases high <;> cases high' <;> try cases waiting
        · exact ih rfl same rfl
        · simp only [List.length_cons, ih rfl same rfl]

theorem length_of_marks {ctx ctx' : Context} {line line' : Line} {d d' : Data}
    {words words' : List UInt16} (kind : d'.isBytes = d.isBytes)
    (marked : d'.items.flatMap DataItem.marks = d.items.flatMap DataItem.marks)
    (emitted : (d.emit ctx line).1 = .ok (some words))
    (emitted' : (d'.emit ctx' line').1 = .ok (some words')) : words'.length = words.length := by
  obtain ⟨cells, first, same⟩ := emit_ok emitted
  obtain ⟨cells', second, same'⟩ := emit_ok emitted'
  cases same
  cases same'
  have same : cells'.map Cell.isWhole = cells.map Cell.isWhole := by
    rw [DataItem.marks_emitAll second, marked, ← DataItem.marks_emitAll first]
  rw [kind]
  unfold Data.words
  split
  · exact length_pairCells rfl same
  · simpa using congrArg List.length same

theorem length_emit {ctx ctx' : Context} {line line' : Line} {d d' : Data}
    {words words' : List UInt16} (fresh : (Body.data d').fresh = (Body.data d).fresh)
    (emitted : Statement.stored (d.emit ctx line).1 = .ok words)
    (emitted' : Statement.stored (d'.emit ctx' line').1 = .ok words') :
    words'.length = words.length := by
  obtain ⟨given, encoded, rfl⟩ := Statement.stored_ok emitted
  obtain ⟨given', encoded', rfl⟩ := Statement.stored_ok emitted'
  obtain ⟨cells, _, rfl⟩ := emit_ok encoded
  obtain ⟨cells', _, rfl⟩ := emit_ok encoded'
  simp only [Body.fresh, Body.data.injEq, Data.mk.injEq] at fresh
  have marked : d'.items.flatMap DataItem.marks = d.items.flatMap DataItem.marks := by
    have both := congrArg (List.flatMap DataItem.marks) fresh.2
    simpa only [List.flatMap_map, DataItem.marks_fresh] using both
  exact length_of_marks fresh.1 marked encoded encoded'

end Data

section

variable {ctx : Context} {line : Line} {old : Option Nat} {words : List UInt16}

theorem Fill.settle_final (final : ctx.finalize = true) (n : Nat) :
    (Fill.settle ctx line old n).1 = max n (old.getD 0) := by
  unfold settle
  split
  · rename_i size
    simp only [final, Bool.true_and, decide_eq_true_eq, Option.getD_some]
    split
    · omega
    · omega
  · simp

theorem Fill.evaluate_final (final : ctx.finalize = true) {tree e : Expr} {n : Int64}
    (evaluated : evaluate ctx line tree = .ok (n, e)) :
    ∃ g, ctx.evaluate line tree = .ok (.number n g) := by
  unfold evaluate at evaluated
  split at evaluated
  · cases evaluated
  · rename_i e' simplified
    cases e' with
    | number n' g =>
      cases evaluated
      exact ⟨g, simplified⟩
    | _ => simp [final] at evaluated

theorem Fill.length_emit {f : Fill} (final : ctx.finalize = true)
    (emitted : Statement.stored (f.emit ctx line old).1 = .ok words) :
    ∃ n g, ctx.evaluate line f.length = .ok (.number n g) ∧ 0 ≤ n ∧
      words.length = max n.toInt.toNat (old.getD 0) := by
  obtain ⟨given, encoded, rfl⟩ := Statement.stored_ok emitted
  obtain ⟨n, e, word, evaluated, negative, rfl, _⟩ := emit_ok encoded
  obtain ⟨g, simplified⟩ := evaluate_final final evaluated
  refine ⟨n, g, simplified, negative, ?_⟩
  rw [Option.getD_some, List.length_replicate, settle_final final]

theorem Align.le_atLeast {boundary : Nat} (positive : 0 < boundary) (n size : Nat) :
    size ≤ atLeast boundary n size := by
  have whole := Nat.div_add_mod (size - n + boundary - 1) boundary
  have rest := Nat.mod_lt (size - n + boundary - 1) positive
  rw [Nat.mul_comm] at whole
  unfold atLeast
  omega

theorem Align.atLeast_whole {boundary : Nat} (positive : 0 < boundary) (n k : Nat) :
    atLeast boundary n (n + k * boundary) = n + k * boundary := by
  have count : (n + k * boundary - n + boundary - 1) / boundary = k := by
    rw [Nat.add_sub_cancel_left]
    refine Nat.div_eq_of_lt_le ?_ ?_
    · omega
    · rw [Nat.succ_mul]
      omega
  rw [atLeast, count]

theorem Align.length_emit {a : Align} {position : Int} (final : ctx.finalize = true)
    (emitted : Statement.stored (a.emit ctx line position old).1 = .ok words) :
    ∃ n g, ctx.evaluate line a.boundary = .ok (.number n g) ∧ 0 < n.toInt.toNat ∧
      words.length = size ctx old n.toInt.toNat position := by
  obtain ⟨given, encoded, rfl⟩ := Statement.stored_ok emitted
  obtain ⟨n, g, evaluated, positive, rfl⟩ := emit_ok final encoded
  exact ⟨n, g, evaluated, by omega, by simp⟩

end

namespace Statement

def isInstruction (st : Statement) : Bool :=
  match st.body with
  | .instruction _ => true
  | _ => false

def latches (st : Statement) : Nat :=
  match st.body with
  | .instruction i => i.latches
  | _ => 0

/-- Padding is given by numbers, no symbol being left in it. -/
def hasFixedPadding (st : Statement) : Bool :=
  match st.body with
  | .fill f => f.length.symbols.isEmpty
  | .align a => a.boundary.symbols.isEmpty
  | _ => true

theorem isInstruction_fresh (st : Statement) : st.fresh.isInstruction = st.isInstruction := by
  obtain ⟨line, body⟩ := st
  cases body <;> rfl

theorem hasFixedPadding_fresh (st : Statement) :
    st.fresh.hasFixedPadding = st.hasFixedPadding := by
  obtain ⟨line, body⟩ := st
  cases body <;> rfl

theorem latches_le (st : Statement) : st.latches ≤ 2 * st.isInstruction.toNat := by
  obtain ⟨line, body⟩ := st
  cases body with
  | instruction i => exact i.latches_le
  | _ => exact Nat.zero_le _

theorem latches_emit (optimize : Bool) (ctx : Context) (position : Int) (old : Option Nat)
    (st : Statement) : st.latches ≤ (st.emit optimize ctx position old).statement.latches := by
  obtain ⟨line, body⟩ := st
  cases body with
  | instruction i =>
    exact sum_mono ((i.later_emit optimize ctx line position).imp
      fun _ _ later => Operand.latched_toNat later)
  | _ => exact Nat.zero_le _

def KeepsForm (optimize : Bool) (st : Statement) : Prop :=
  ∀ i : Instruction, st.body.fresh = .instruction i.fresh → ∀ ctx position words,
    ctx.finalize = true → (i.emit optimize ctx st.line position).1 = .ok words →
    i.encode ctx st.line = .ok words

theorem keepsForm_plain (st : Statement) : st.KeepsForm false := by
  intro i _ ctx position words _ emitted
  rw [← emitted, i.emit_plain ctx st.line position]

section

variable {optimize : Bool} {ctx ctx' : Context} {position position' : Int} {old : Option Nat}
  {st : Statement} {words words' : List UInt16}

theorem wellRead_of_fresh {line : Line} {i i' : Instruction}
    (read : (Statement.mk line (.instruction i)).fresh.IsRead) (same : i'.fresh = i.fresh) :
    i'.WellRead := by
  obtain ⟨s, read⟩ := read
  have read := body_of_read read
  refine (@Instruction.wellRead_of_read s line i' ?_).2
  rw [same]
  exact read

theorem length_instruction {line : Line} {i : Instruction}
    (read : (Statement.mk line (.instruction i)).fresh.IsRead)
    (kept : KeepsForm optimize ⟨line, .instruction i⟩) (final : ctx.finalize = true)
    (final' : ctx'.finalize = true) (emitted : (i.emit optimize ctx line position).1 = .ok words)
    (emitted' : ((i.emit optimize ctx line position).2.1.emit optimize ctx' line position').1 =
      .ok words') :
    words.length = 1 + (i.emit optimize ctx line position).2.1.room ∧
    words'.length = 1 +
      ((i.emit optimize ctx line position).2.1.emit optimize ctx' line position').2.1.room := by
  have fresh := i.fresh_emit optimize ctx line position
  have encoded := kept i rfl ctx position words final emitted
  have encoded' := kept _ (by simp only [Body.fresh, fresh]) ctx' position' words' final' emitted'
  exact ⟨Instruction.length_encode (wellRead_of_fresh read rfl) final encoded optimize position,
    Instruction.length_encode (wellRead_of_fresh read fresh) final' encoded' optimize position'⟩

theorem length_mono (read : st.fresh.IsRead) (kept : st.KeepsForm optimize)
    (final : ctx.finalize = true) (final' : ctx'.finalize = true)
    (emitted : (st.emit optimize ctx position old).outcome = .ok words)
    (emitted' : ((st.emit optimize ctx position old).statement.emit optimize ctx' position'
      (some words.length)).outcome = .ok words') : words.length ≤ words'.length := by
  obtain ⟨line, body⟩ := st
  cases body with
  | instruction i =>
    rw [outcome_instruction] at emitted
    replace emitted' := (outcome_instruction ..).symm.trans emitted'
    obtain ⟨length, length'⟩ := length_instruction read kept final final' emitted emitted'
    have more := Operand.sum_room_mono
      ((i.emit optimize ctx line position).2.1.later_emit optimize ctx' line position')
    simp only [Instruction.room] at length length'
    omega
  | data d =>
    have same := Data.length_emit (Data.fresh_emit ctx line d) emitted emitted'
    omega
  | fill f =>
    replace emitted' : stored ((f.emit ctx line old).2.1.emit ctx' line (some words.length)).1 =
      .ok words' := emitted'
    obtain ⟨_, _, _, _, length⟩ := Fill.length_emit final' emitted'
    rw [length, Option.getD_some]
    exact Nat.le_max_right _ _
  | align a =>
    replace emitted' : stored ((a.emit ctx line position old).2.emit ctx' line position'
      (some words.length)).1 = .ok words' := emitted'
    obtain ⟨_, _, _, positive, length⟩ := Align.length_emit final' emitted'
    simp only [Align.size, final', if_true] at length
    rw [length]
    exact Align.le_atLeast positive _ _

theorem length_steady (read : st.fresh.IsRead) (kept : st.KeepsForm optimize)
    (padding : st.hasFixedPadding = true) (final : ctx.finalize = true)
    (final' : ctx'.finalize = true) (symbols : ctx'.symbols = ctx.symbols)
    (emitted : (st.emit optimize ctx position old).outcome = .ok words)
    (emitted' : ((st.emit optimize ctx position old).statement.emit optimize ctx' position
      (some words.length)).outcome = .ok words')
    (latches : ((st.emit optimize ctx position old).statement.emit optimize ctx' position
      (some words.length)).statement.latches =
        (st.emit optimize ctx position old).statement.latches) :
    words'.length = words.length := by
  have closed {line : Line} {tree : Expr} (none : tree.symbols.isEmpty = true) :
      ctx'.evaluate line tree = ctx.evaluate line tree :=
    Context.evaluate_congr symbols (by simp [List.isEmpty_iff.1 none])
  obtain ⟨line, body⟩ := st
  cases body with
  | instruction i =>
    rw [outcome_instruction] at emitted
    replace emitted' := (outcome_instruction ..).symm.trans emitted'
    obtain ⟨length, length'⟩ := length_instruction read kept final final' emitted emitted'
    have same := Operand.sum_room_congr
      ((i.emit optimize ctx line position).2.1.later_emit optimize ctx' line position) latches
    clear latches
    simp only [Instruction.room] at length length'
    omega
  | data d => exact Data.length_emit (Data.fresh_emit ctx line d) emitted emitted'
  | fill f =>
    have kept : (f.emit ctx line old).2.1.length = f.length := by
      have fresh := Fill.fresh_emit ctx line old f
      simp only [Body.fresh, Body.fill.injEq, Fill.mk.injEq] at fresh
      exact fresh.1
    obtain ⟨n, g, evaluated, _, length⟩ := Fill.length_emit final emitted
    replace emitted' : stored ((f.emit ctx line old).2.1.emit ctx' line (some words.length)).1 =
      .ok words' := emitted'
    obtain ⟨n', g', evaluated', _, length'⟩ := Fill.length_emit final' emitted'
    rw [kept, closed padding, evaluated] at evaluated'
    cases evaluated'
    rw [length', Option.getD_some, length]
    omega
  | align a =>
    have kept : (a.emit ctx line position old).2.boundary = a.boundary := by
      have fresh := Align.fresh_emit ctx line position old a
      simp only [Body.fresh, Body.align.injEq, Align.mk.injEq] at fresh
      exact fresh.1
    obtain ⟨n, g, evaluated, positive, length⟩ := Align.length_emit final emitted
    replace emitted' : stored ((a.emit ctx line position old).2.emit ctx' line position
      (some words.length)).1 = .ok words' := emitted'
    obtain ⟨n', g', evaluated', _, length'⟩ := Align.length_emit final' emitted'
    rw [kept, closed padding, evaluated] at evaluated'
    cases evaluated'
    simp only [Align.size, final', if_true] at length'
    -- The first length goes beyond the next boundary by whole boundaries.
    obtain ⟨k, whole⟩ : ∃ k, words.length =
        Align.gap n.toInt.toNat position + k * n.toInt.toNat := by
      cases old with
      | none => exact ⟨0, by simpa [Align.size] using length⟩
      | some size =>
        rw [Align.size] at length
        simp only [final, if_true, Align.atLeast] at length
        exact ⟨_, length⟩
    rw [length', whole]
    exact Align.atLeast_whole positive _ _

end

end Statement

end WordAsm
