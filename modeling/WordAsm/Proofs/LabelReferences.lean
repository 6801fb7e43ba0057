import WordAsm.Proofs.InstructionTexts
import WordAsm.Proofs.Latches

/-!
Calls and jumps to a label. The name of the label is read as an operand whose value is the position
of the label, and each pass writes it as a literal: in the instruction word if it fits there and has
no word of its own from an earlier finalizing pass.
-/
namespace WordAsm

def Argument.ofPosition (latched : Bool) : Option Nat → Argument
  | none => .word 0
  | some n =>
    if !latched && UInt16.ofNat n ≤ Field.maxLiteral then .short (.ofNat n) else .word (.ofNat n)

def Argument.isWord : Argument → Bool
  | .word _ => true
  | _ => false

theorem Argument.isWord_ofPosition (latched : Bool) (position : Option Nat) :
    (ofPosition latched position).isWord =
      ((ofPosition latched position).code == Field.nextWord) := by
  cases position with
  | none => rfl
  | some n =>
    simp only [ofPosition]
    split
    · rename_i short
      have small : UInt16.ofNat n ≤ Field.maxLiteral := by
        simpa using (Bool.and_eq_true_iff.1 short).2
      have other : Field.literal + UInt16.ofNat n ≠ Field.nextWord := by
        intro same
        have alone := (Field.literal_ok small).1
        rw [same] at alone
        cases alone
      simp [isWord, code, other]
    · rfl

namespace Operand

def Refers (name : String) (latched : Bool) (o : Operand) : Prop :=
  ∃ last, o = expression name (.leaf name false) last latched

section

variable {name : String} (named : IsName name)

include named

theorem read_name {s : Symbols} (line : Line) (free : s.constant? name = none) :
    ∃ o, Operand.read s line name = .ok o ∧ o.Refers name false := by
  have built : s.build line name = .ok (.leaf name false) := by
    have quiet : (s.constantsOn line).symbol name = .ok none := by
      simp only [Symbols.constantsOn, Symbols.known, named.not_register, named.not_character, free,
        Bool.false_eq_true, if_false]
    rw [Symbols.build, Symbols.parse_plain named.plain]
    simp only [Expr.simplify, Expr.askSymbol, named.not_number, quiet]
    rfl
  exact ⟨_, Argument.read_tree (Argument.trim_plain named.plain) named.not_spelling built, _, rfl⟩

variable {ctx : Context} {line : Line} {position : Option Nat}
  (value : ctx.symbols.labelValue ctx.position ctx.finalize line name =
    .ok (position.map Int64.ofNat))

include value

theorem evaluate_name : ctx.evaluate line (.leaf name false) =
    .ok ((position.map fun n => Expr.number (Int64.ofNat n) false).getD (.leaf name false)) := by
  have answer : (ctx.symbols.labelsOn ctx.position ctx.finalize line).symbol name =
      .ok (position.map Int64.ofNat) := by
    simp only [Symbols.labelsOn, Symbols.known, named.not_register, named.not_character, value,
      Bool.false_eq_true, if_false]
  simp only [Context.evaluate, Expr.simplify, Expr.askSymbol, named.not_number, answer]
  cases position <;> rfl

theorem field_refers {o : Operand} {latched : Bool} (refers : o.Refers name latched)
    (known : ctx.finalize = true → position.isSome = true) :
    ∃ left, o.field ctx line = (.ok (Argument.ofPosition latched position).code, left) ∧
      left.Refers name
        (latched || (ctx.finalize && (Argument.ofPosition latched position).isWord)) ∧
      left.extra (Argument.ofPosition latched position).code ctx.finalize =
        .ok (Argument.ofPosition latched position).extra := by
  obtain ⟨last, rfl⟩ := refers
  have evaluated := evaluate_name named value
  rw [Argument.isWord_ofPosition]
  cases position with
  | none =>
    have provisional : ctx.finalize = false := by
      cases final : ctx.finalize with
      | false => rfl
      | true => cases known final
    have classified : fieldOf name (.leaf name false) latched = .ok Field.nextWord := by
      have open_ : firstRegister? (.leaf name false) = none := by
        simp [firstRegister?, Expr.symbols, named.not_number, named.not_register]
      rw [fieldOf, open_]
      rfl
    refine ⟨_, field_steady ctx line evaluated classified, ⟨_, rfl⟩, ?_⟩
    rw [provisional]
    rfl
  | some n =>
    have code : literalField (.number (Int64.ofNat n) false) latched =
        (Argument.ofPosition latched (some n)).code := by
      simp only [literalField, lowWord_ofNat, Argument.ofPosition]
      split <;> rfl
    have given : (expression name (.leaf name false) last latched).field ctx line =
        (.ok (Argument.ofPosition latched (some n)).code, expression name (.leaf name false)
          (.number (Int64.ofNat n) false) (latched || (ctx.finalize &&
            (Argument.ofPosition latched (some n)).code == Field.nextWord))) := by
      simp only [field, evaluated, Option.map_some, Option.getD_some, fieldOf_number, code]
    refine ⟨_, given, ⟨_, rfl⟩, ?_⟩
    simp only [Argument.ofPosition]
    split
    · rename_i short
      have small : UInt16.ofNat n ≤ Field.maxLiteral := by
        simpa using (Bool.and_eq_true_iff.1 short).2
      simp only [extra, Argument.code, (Field.literal_ok small).1, Bool.not_false, if_true,
        Argument.extra]
    · simp only [extra, wordOf, lowWord_ofNat]
      rfl

end

end Operand

namespace Transfer

/-- The instruction that goes to a literal address. -/
def decoded : Transfer → Argument → Decoded
  | .call, a => .special .jsr a
  | .jump, a => .basic .set .pc a

def mnemonic : Transfer → String
  | .call => "JSR"
  | .jump => "SET"

/-- The operands of the instruction that goes to a label. -/
def operands (name : String) : Transfer → List String
  | .call => [name]
  | .jump => ["PC", name]

end Transfer

namespace Instruction

def Refers (kind : Transfer) (name : String) (latched : Bool) : Instruction → Prop
  | basic written _ =>
    kind = .jump ∧ written.op = .set ∧ written.a.Shows .pc ∧ written.b.Refers name latched
  | special written => kind = .call ∧ written.a.Refers name latched

section

variable {kind : Transfer} {name : String} (named : IsName name)

include named

theorem read_refers {s : Symbols} {line : Line} (free : s.constant? name = none)
    (tokens : line.tokens = kind.mnemonic :: kind.operands name) :
    ∃ i, Instruction.read s line = .ok i ∧ i.Refers kind name false := by
  obtain ⟨o, read, refers⟩ := Operand.read_name named line free
  cases kind with
  | call =>
    have tokens : line.tokens = [SpecialOp.jsr.name, name] := tokens
    exact ⟨_, read_special tokens read, rfl, refers⟩
  | jump =>
    have tokens : line.tokens = [BasicOp.set.name, Argument.pc.text, name] := tokens
    exact ⟨_, read_basic tokens (Argument.pc.read_text s line) read, rfl, rfl,
      Operand.shows_operand .pc, refers⟩

theorem emit_refers {i : Instruction} {latched : Bool} (refers : i.Refers kind name latched)
    {ctx : Context} {line : Line} {target : Option Nat}
    (value : ctx.symbols.labelValue ctx.position ctx.finalize line name =
      .ok (target.map Int64.ofNat))
    (known : ctx.finalize = true → target.isSome = true) (position : Int) :
    ∃ left, i.emit false ctx line position =
        (.ok (kind.decoded (.ofPosition latched target)).words, left, []) ∧
      left.Refers kind name
        (latched || (ctx.finalize && (Argument.ofPosition latched target).isWord)) := by
  cases i with
  | basic written used =>
    obtain ⟨rfl, op, shown, refers⟩ := refers
    obtain ⟨leftA, fieldA, againA, extraA⟩ := Operand.field_shows ctx line shown rfl
    obtain ⟨leftB, fieldB, againB, extraB⟩ := Operand.field_refers named value refers known
    refine ⟨basic ⟨written.op, leftA, leftB⟩ used, ?_, rfl, op, againA, againB⟩
    rw [emit_basic position fieldA fieldB extraA extraB used, op]
    rfl
  | special written =>
    obtain ⟨rfl, refers⟩ := refers
    obtain ⟨left, field, again, extra⟩ := Operand.field_refers named value refers known
    exact ⟨special ⟨written.op, left⟩, emit_special position field extra, rfl, again⟩

omit named

theorem latches_refers {i : Instruction} {latched : Bool} (refers : i.Refers kind name latched) :
    i.latches = latched.toNat := by
  cases i with
  | basic written used =>
    obtain ⟨-, -, shown, last, refers⟩ := refers
    have first : written.a.isLatched = false := by
      cases found : written.a.isLatched with
      | false => rfl
      | true =>
        obtain ⟨w, same⟩ := shown.latched found
        cases same
    have second : written.b.isLatched = latched := by rw [refers, Operand.isLatched]
    simp [latches, operands, first, second]
  | special written =>
    obtain ⟨-, last, refers⟩ := refers
    have first : written.a.isLatched = latched := by rw [refers, Operand.isLatched]
    simp [latches, operands, first]

end

end Instruction

end WordAsm
