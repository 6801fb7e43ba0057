import WordAsm.Proofs.Completion
import WordAsm.Proofs.EmittedTrees
import WordAsm.Proofs.Latches

/-!
Which instructions the optimizer can replace, and what an instruction is emitted from: only the
values of the symbols in its operands. The others are emitted as they are written.
-/
namespace WordAsm

namespace Operand

def symbols : Operand → List String
  | fixed .. => []
  | expression _ tree _ _ => tree.symbols

def inBrackets : Operand → Bool
  | fixed .. => false
  | expression raw tree _ _ => isBracketed raw tree

/-- The operand is the program counter. -/
def isCounter : Operand → Bool
  | fixed code _ => code == Field.pc
  | expression _ tree _ _ => firstRegister? tree == some "PC"

theorem symbols_fresh (o : Operand) : o.fresh.symbols = o.symbols := by cases o <;> rfl

theorem inBrackets_fresh (o : Operand) : o.fresh.inBrackets = o.inBrackets := by cases o <;> rfl

theorem isCounter_fresh (o : Operand) : o.fresh.isCounter = o.isCounter := by cases o <;> rfl

section

variable {ctx : Context} {line : Line} {o left : Operand} {code v : UInt16}

theorem isCounter_of_field (wellRead : o.WellRead)
    (classified : o.field ctx line = (.ok Field.pc, left)) : o.isCounter = true := by
  cases o with
  | fixed code raw =>
    cases classified
    rfl
  | expression raw tree last latched =>
    obtain ⟨e, _, evaluated, known, _⟩ := field_expression classified
    rcases fieldOf_cases known with ⟨_, _, other⟩ | ⟨_, _, r, _, _, other⟩ |
      ⟨_, name, first, _, spelled⟩ | ⟨_, _, other⟩
    · cases other
    · split at other <;> cases r <;> cases other
    · obtain ⟨_, _, _, member, _⟩ := register_of_first first
      have counter : ∀ name ∈ registerNames, Field.ofText? name = some Field.pc →
          name = "PC" := by decide +kernel
      rw [isCounter, ← Context.firstRegister_evaluate wellRead evaluated, first,
        counter name member spelled]
      rfl
    · have high := nextWord_le_literalField e latched
      rw [← other] at high
      exact absurd high (by decide)

theorem isLiteral_of_constant (wellRead : o.WellRead)
    (classified : o.field ctx line = (.ok code, left)) (constant : left.constant? code = some v) :
    left.IsLiteral ctx line := by
  cases o with
  | fixed code' raw =>
    cases classified
    obtain ⟨low, short⟩ := Field.spelling_not_literal wellRead
    rw [constant_none low short] at constant
    cases constant
  | expression raw tree last latched =>
    obtain ⟨e, latched', evaluated, known, rfl⟩ := field_expression classified
    obtain ⟨rfl, n, g, rfl, _⟩ := constant_of_literalField known constant
    rcases fieldOf_cases known with ⟨_, _, other⟩ | ⟨_, _, _, first, _⟩ | ⟨_, _, first, _⟩ |
      ⟨plain, first, _⟩
    · have high := nextWord_le_literalField (.number n g) latched
      rw [other] at high
      exact absurd high (by decide)
    · cases first
    · cases first
    · exact ⟨_, evaluated, plain, first⟩

theorem inBrackets_of_isLiteral (literal : o.IsLiteral ctx line) : o.inBrackets = false := by
  cases o with
  | fixed => rfl
  | expression raw tree last latched =>
    obtain ⟨e, evaluated, plain, _⟩ := literal
    rwa [isBracketed_evaluate evaluated] at plain

end

end Operand

namespace BasicOperation

def symbols (i : BasicOperation) : List String := i.a.symbols ++ i.b.symbols

/-- An instruction that the rules may shorten: one with a literal, which does not take a word of
its own for the other operand. -/
def isReplaceable (i : BasicOperation) : Bool :=
  (match i.op with
    | .set => i.a.isCounter
    | .add | .sub | .mul | .div | .mod => true
    | _ => false) && i.a.fresh.room == 0 && !i.b.inBrackets

theorem symbols_fresh (i : BasicOperation) : i.fresh.symbols = i.symbols := by
  simp only [symbols, fresh, Operand.symbols_fresh]

theorem symbols_of_tree {i : BasicOperation} {tree : Expr} (member : tree ∈ i.trees) :
    tree.symbols ⊆ i.symbols := by
  have operand (o : Operand) (member : tree ∈ o.trees) : tree.symbols = o.symbols := by
    cases o with
    | fixed => cases member
    | expression raw tree' last latched =>
      rw [List.mem_singleton.1 member]
      rfl
  rcases List.mem_append.1 member with first | second
  · rw [operand i.a first]
    exact List.subset_append_left _ _
  · rw [operand i.b second]
    exact List.subset_append_right _ _

theorem isReplaceable_fresh (i : BasicOperation) : i.fresh.isReplaceable = i.isReplaceable := by
  simp only [isReplaceable, fresh, Operand.isCounter_fresh, Operand.fresh_fresh,
    Operand.inBrackets_fresh]

section

variable {ctx : Context} {line : Line} {position : Int} {i left sub : BasicOperation}

theorem isReplaceable_of_rule {replacing : Option BasicOp} {codeA codeB : UInt16}
    (wellRead : i.WellRead) (fields : i.fields ctx line = (.ok (codeA, codeB), left))
    (replaced : left.replacement? position replacing codeA codeB = some sub)
    (room : i.a.fresh.room = 0) : i.isReplaceable = true := by
  obtain ⟨op, fieldA, fieldB⟩ := fields_ok fields
  have outside (literal : left.b.IsLiteral ctx line) : i.b.inBrackets = false := by
    rw [← Operand.inBrackets_fresh, ← Operand.fresh_left fieldB, Operand.inBrackets_fresh]
    exact Operand.inBrackets_of_isLiteral literal
  obtain ⟨op', b, rfl, ⟨rfl, raw, tree, last, latched, written, rule⟩ |
      ⟨v, k, constant, _, rule⟩⟩ :=
    replacement_ok replaced
  · rw [written] at fieldB outside
    have plain := outside (Operand.isLiteral_of_nextWord fieldB)
    rw [op] at rule
    unfold forLongLiteral at rule
    split at rule
    · rename_i set
      split at rule
      · rename_i counter
        rw [eq_of_beq counter] at fieldA
        simp [isReplaceable, set, Operand.isCounter_of_field wellRead.1 fieldA, room, plain]
      · cases rule
    · rename_i add
      simp [isReplaceable, add, room, plain]
    · rename_i sub
      simp [isReplaceable, sub, room, plain]
    · cases rule
  · have plain := outside (Operand.isLiteral_of_constant wellRead.2 fieldB constant)
    rw [op] at rule
    unfold forPower at rule
    split at rule
    · rename_i mul
      simp [isReplaceable, mul, room, plain]
    · rename_i div
      simp [isReplaceable, div, room, plain]
    · rename_i mod
      simp [isReplaceable, mod, room, plain]
    · cases rule

theorem isReplaceable_of_substitute {depth : Nat} {replacing : Option BasicOp}
    {replaced : BasicOp} {chosen : BasicOperation} (wellRead : i.WellRead)
    (final : ctx.finalize = true)
    (substituted : (i.substitute ctx line position depth replacing).1 =
      .ok (some (replaced, chosen))) :
    i.isReplaceable = true := by
  have derived := derived_of_substitute substituted
  obtain ⟨_, _, _, left, sub, codeA, codeB, _, here, given, _, chosenFields, short⟩ :=
    substitute_ok substituted
  -- The first operand has no word in what is chosen, and so none without a latch.
  have room : i.a.fresh.room = 0 := by
    obtain ⟨_, fieldA, _⟩ := fields_ok chosenFields
    have same : chosen.a.fresh = i.a.fresh := derived.first
    have alone := Operand.room_field (Operand.wellRead_congr same wellRead.1) final fieldA
    simp only [isShort, Bool.and_eq_true, Bool.not_eq_true'] at short
    rw [short.1] at alone
    have less := @Operand.room_mono i.a.fresh chosen.a
      (by rw [Operand.fresh_fresh]; exact same) (by cases i.a <;> simp [Operand.fresh,
        Operand.ofTree, Operand.isLatched])
    simp only [Bool.false_eq_true, if_false] at alone
    omega
  exact isReplaceable_of_rule wellRead here given room

end

end BasicOperation

namespace Instruction

section

variable {ctx ctx' : Context} {line : Line} {position : Int}

theorem emit_of_symbols {written : BasicOperation} (used : Option BasicOperation)
    (symbols : ctx'.symbols = ctx.symbols) (final : ctx'.finalize = ctx.finalize)
    (agree : ∀ s ∈ written.symbols,
      (ctx'.resolver line).symbol s = (ctx.resolver line).symbol s) (optimize : Bool) :
    (basic written used).emit optimize ctx' line position =
      (basic written used).emit optimize ctx line position := by
  refine emit_agree ⟨final, ?_⟩ optimize position
  intro tree member
  apply Context.evaluate_congr symbols
  intro s inside
  exact agree s (BasicOperation.symbols_of_tree member inside)

theorem encode_of_emitBasic {written : BasicOperation} {used : Option BasicOperation}
    {words : List UInt16} (wellRead : written.WellRead) (final : ctx.finalize = true)
    (kept : written.isReplaceable = false)
    (emitted : (emitBasic true ctx line position written used).1 = .ok words) :
    (written.encode ctx line).1 = .ok words := by
  rw [emitBasic_optimized] at emitted
  split at emitted
  · cases emitted
  · exact emitted
  · rename_i replaced sub chosen
    have replaceable := BasicOperation.isReplaceable_of_substitute wellRead final chosen
    rw [kept] at replaceable
    cases replaceable

end

end Instruction

end WordAsm
