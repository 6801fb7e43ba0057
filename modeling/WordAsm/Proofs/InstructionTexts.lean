import WordAsm.Proofs.LabelNames

/-!
The lines of decoded instructions. Such a line is read as an instruction that gives the decoded one
in every pass.
-/
namespace WordAsm

section

variable {line : Line} {first : String} {operands : List String}

theorem Line.first_of_tokens (tokens : line.tokens = first :: operands) : line.first = first := by
  rw [Line.first, tokens]
  rfl

theorem Line.operands_of_tokens (tokens : line.tokens = first :: operands) :
    line.operands = operands := by
  rw [Line.operands, tokens]
  rfl

end

namespace Instruction

section

variable {s : Symbols} {line : Line}

theorem read_basic {op : BasicOp} {textA textB : String} {a b : Operand}
    (tokens : line.tokens = [op.name, textA, textB]) (readA : Operand.read s line textA = .ok a)
    (readB : Operand.read s line textB = .ok b) :
    Instruction.read s line = .ok (basic ⟨op, a, b⟩ none) := by
  have found : Mnemonic.find? op.name = some (.basic op) := by cases op <;> decide +kernel
  rw [Instruction.read, Line.first_of_tokens tokens, Line.operands_of_tokens tokens, found]
  simp only [readA, readB]
  rfl

theorem read_special {op : SpecialOp} {text : String} {a : Operand}
    (tokens : line.tokens = [op.name, text]) (readA : Operand.read s line text = .ok a) :
    Instruction.read s line = .ok (special ⟨op, a⟩) := by
  have found : Mnemonic.find? op.name = some (.special op) := by cases op; decide +kernel
  rw [Instruction.read, Line.first_of_tokens tokens, Line.operands_of_tokens tokens, found]
  simp only [readA]
  rfl

end

section

variable {ctx : Context} {line : Line} (position : Int)

theorem emit_basic {written : BasicOperation} {a b : Argument} {leftA leftB : Operand}
    (fieldA : written.a.field ctx line = (.ok a.code, leftA))
    (fieldB : written.b.field ctx line = (.ok b.code, leftB))
    (extraA : leftA.extra a.code ctx.finalize = .ok a.extra)
    (extraB : leftB.extra b.code ctx.finalize = .ok b.extra) (used : Option BasicOperation) :
    (basic written used).emit false ctx line position =
      (.ok (Decoded.basic written.op a b).words, basic ⟨written.op, leftA, leftB⟩ used, []) := by
  rw [emit, emitBasic_plain]
  simp only [BasicOperation.encode, BasicOperation.fields, fieldA, fieldB, BasicOperation.assemble,
    extraA, extraB]
  rfl

theorem emit_special {written : SpecialOperation} {a : Argument} {left : Operand}
    (fieldA : written.a.field ctx line = (.ok a.code, left))
    (extraA : left.extra a.code ctx.finalize = .ok a.extra) :
    (special written).emit false ctx line position =
      (.ok (Decoded.special written.op a).words, special ⟨written.op, left⟩, []) := by
  simp only [emit, SpecialOperation.encode, fieldA, SpecialOperation.assemble, extraA]
  rfl

end

/-- The instruction is the line of a decoded one as passes may have left it. -/
def Shows (d : Decoded) : Instruction → Prop
  | basic written _ => ∃ a b, d = .basic written.op a b ∧ written.a.Shows a ∧ written.b.Shows b
  | special written => ∃ a, d = .special written.op a ∧ written.a.Shows a

theorem read_shows {d : Decoded} {s : Symbols} {line : Line} (code : ∀ w, d ≠ .raw w)
    (tokens : line.tokens = d.mnemonic :: d.operandTexts) :
    ∃ i, Instruction.read s line = .ok i ∧ i.Shows d := by
  cases d with
  | basic op a b =>
    exact ⟨_, read_basic tokens (a.read_text s line) (b.read_text s line),
      a, b, rfl, Operand.shows_operand a, Operand.shows_operand b⟩
  | special op a =>
    exact ⟨_, read_special tokens (a.read_text s line), a, rfl, Operand.shows_operand a⟩
  | raw w => exact absurd rfl (code w)

theorem emit_shows {d : Decoded} {i : Instruction} (shown : i.Shows d)
    (shortest : ∀ a ∈ d.arguments, a.isShortest = true) (ctx : Context) (line : Line)
    (position : Int) :
    ∃ left, i.emit false ctx line position = (.ok d.words, left, []) ∧ left.Shows d := by
  cases i with
  | basic written used =>
    obtain ⟨a, b, rfl, shownA, shownB⟩ := shown
    obtain ⟨leftA, fieldA, againA, extraA⟩ :=
      Operand.field_shows ctx line shownA (shortest a (by simp [Decoded.arguments]))
    obtain ⟨leftB, fieldB, againB, extraB⟩ :=
      Operand.field_shows ctx line shownB (shortest b (by simp [Decoded.arguments]))
    exact ⟨_, emit_basic position fieldA fieldB extraA extraB used, a, b, rfl, againA, againB⟩
  | special written =>
    obtain ⟨a, rfl, shown⟩ := shown
    obtain ⟨left, field, again, extra⟩ :=
      Operand.field_shows ctx line shown (shortest a (by simp [Decoded.arguments]))
    exact ⟨_, emit_special position field extra, a, rfl, again⟩

end Instruction

end WordAsm
