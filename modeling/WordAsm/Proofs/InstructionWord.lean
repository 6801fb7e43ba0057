import WordAsm.Image.Decode

/-!
Decoding of encoded instructions. The fields of an instruction word can be read back from it, and
an instruction word with the words that its fields take decodes to the instruction, whatever
follows.
-/
namespace WordAsm

namespace Word

theorem toNat_encode {op a b : UInt16} (opBound : op.toNat < 16) (aBound : a.toNat < 64)
    (bBound : b.toNat < 64) :
    (encode op a b).toNat = op.toNat + 16 * a.toNat + 1024 * b.toNat := by
  have mask4 : op.toNat &&& 15 = op.toNat := by
    rw [show 15 = 2 ^ 4 - 1 from rfl, Nat.and_two_pow_sub_one_eq_mod]
    omega
  have mask6 : ∀ n < 64, n &&& 63 = n := by
    intro n bound
    rw [show 63 = 2 ^ 6 - 1 from rfl, Nat.and_two_pow_sub_one_eq_mod]
    omega
  simp only [encode, opcodeMask, fieldMask, UInt16.toNat_or, UInt16.toNat_and,
    UInt16.toNat_shiftLeft, UInt16.reduceToNat, mask4, mask6 _ aBound, mask6 _ bBound,
    Nat.shiftLeft_eq, Nat.reduceMod]
  have first : a.toNat * 2 ^ 4 % 2 ^ 16 = 2 ^ 4 * a.toNat := by omega
  have second : b.toNat * 2 ^ 10 % 2 ^ 16 = 2 ^ 10 * b.toNat := by omega
  rw [first, second, Nat.or_comm op.toNat, ← Nat.two_pow_add_eq_or_of_lt (by omega), Nat.or_comm,
    ← Nat.two_pow_add_eq_or_of_lt (by omega)]
  omega

theorem opcode_encode {op a b : UInt16} (opBound : op.toNat < 16) (aBound : a.toNat < 64)
    (bBound : b.toNat < 64) : opcode (encode op a b) = op := by
  apply UInt16.toNat_inj.1
  rw [opcode, UInt16.toNat_and, toNat_encode opBound aBound bBound,
    show opcodeMask.toNat = 2 ^ 4 - 1 from rfl, Nat.and_two_pow_sub_one_eq_mod]
  omega

theorem first_encode {op a b : UInt16} (opBound : op.toNat < 16) (aBound : a.toNat < 64)
    (bBound : b.toNat < 64) : first (encode op a b) = a := by
  apply UInt16.toNat_inj.1
  rw [first, UInt16.toNat_and, UInt16.toNat_shiftRight, toNat_encode opBound aBound bBound,
    show fieldMask.toNat = 2 ^ 6 - 1 from rfl, Nat.and_two_pow_sub_one_eq_mod,
    Nat.shiftRight_eq_div_pow, show (4 : UInt16).toNat % 16 = 4 from rfl]
  omega

theorem second_encode {op a b : UInt16} (opBound : op.toNat < 16) (aBound : a.toNat < 64)
    (bBound : b.toNat < 64) : second (encode op a b) = b := by
  apply UInt16.toNat_inj.1
  rw [second, UInt16.toNat_and, UInt16.toNat_shiftRight, toNat_encode opBound aBound bBound,
    show fieldMask.toNat = 2 ^ 6 - 1 from rfl, Nat.and_two_pow_sub_one_eq_mod,
    Nat.shiftRight_eq_div_pow, show (10 : UInt16).toNat % 16 = 10 from rfl]
  omega

end Word

namespace Field

/-- A field of six bits with the words that belong to it. -/
structure Takes (code : UInt16) (words : List UInt16) : Prop where
  bound : code.toNat < 64
  length : words.length = if hasNextWord code then 1 else 0

end Field

namespace Argument

theorem length_extra_ofField (code next : UInt16) (bound : code.toNat < 64) :
    (ofField code next).extra.length = if Field.hasNextWord code then 1 else 0 := by
  have alone : (ofField code next).extra.length = (ofField code 0).extra.length := by
    simp only [ofField, apply_ite extra, apply_ite List.length]
    simp only [extra, List.length_cons]
  have checked : ∀ n < 64, (ofField (UInt16.ofNat n) 0).extra.length =
      if Field.hasNextWord (UInt16.ofNat n) then 1 else 0 := by decide +kernel
  rw [alone, ← UInt16.ofNat_toNat (x := code)]
  exact checked code.toNat bound

end Argument

namespace Decoded

theorem operand_append {code : UInt16} {words : List UInt16} (taken : Field.Takes code words)
    (rest : List UInt16) :
    operand? code (words ++ rest) = some (.ofField code (words.headD 0), rest) := by
  have length := taken.length
  unfold operand?
  split at length
  · rename_i next
    obtain ⟨w, rfl⟩ := List.length_eq_one_iff.1 length
    rw [if_pos next]
    rfl
  · rename_i next
    obtain rfl := List.length_eq_zero_iff.1 length
    rw [if_neg next]
    rfl

theorem ofWords_basic (op : BasicOp) {codeA codeB : UInt16} {wordsA wordsB : List UInt16}
    (takenA : Field.Takes codeA wordsA) (takenB : Field.Takes codeB wordsB) (rest : List UInt16) :
    ofWords (Word.encode op.opcode codeA codeB) (wordsA ++ wordsB ++ rest) =
      .basic op (.ofField codeA (wordsA.headD 0)) (.ofField codeB (wordsB.headD 0)) := by
  have bound : op.opcode.toNat < 16 := by cases op <;> decide
  have known : BasicOp.ofOpcode? op.opcode = some op := by cases op <;> decide
  have basic : (op.opcode == 0) = false := by cases op <;> decide
  simp only [ofWords, basic?, Word.opcode_encode bound takenA.bound takenB.bound,
    Word.first_encode bound takenA.bound takenB.bound,
    Word.second_encode bound takenA.bound takenB.bound, basic, known, List.append_assoc,
    operand_append takenA, operand_append takenB, Option.bind_eq_bind, Option.bind_some,
    Bool.false_eq_true, ↓reduceIte]
  rfl

theorem ofWords_special (op : SpecialOp) {code : UInt16} {words : List UInt16}
    (taken : Field.Takes code words) (rest : List UInt16) :
    ofWords (Word.encode 0 op.opcode code) (words ++ rest) =
      .special op (.ofField code (words.headD 0)) := by
  have zero : (0 : UInt16).toNat < 16 := by decide
  have bound : op.opcode.toNat < 64 := by cases op; decide
  have known : SpecialOp.ofOpcode? op.opcode = some op := by cases op; decide
  simp only [ofWords, special?, Word.opcode_encode zero bound taken.bound,
    Word.first_encode zero bound taken.bound, Word.second_encode zero bound taken.bound, known,
    operand_append taken, Option.bind_eq_bind, Option.bind_some, beq_self_eq_true, ↓reduceIte]
  rfl

theorem size_basic (op : BasicOp) {codeA codeB : UInt16} {wordsA wordsB : List UInt16}
    (takenA : Field.Takes codeA wordsA) (takenB : Field.Takes codeB wordsB) :
    (basic op (.ofField codeA (wordsA.headD 0)) (.ofField codeB (wordsB.headD 0))).size =
      1 + wordsA.length + wordsB.length := by
  simp only [size, arguments, List.flatMap_cons, List.flatMap_nil, List.append_nil,
    List.length_append, Argument.length_extra_ofField _ _ takenA.bound,
    Argument.length_extra_ofField _ _ takenB.bound, takenA.length, takenB.length]
  omega

theorem size_special (op : SpecialOp) {code : UInt16} {words : List UInt16}
    (taken : Field.Takes code words) :
    (special op (.ofField code (words.headD 0))).size = 1 + words.length := by
  simp only [size, arguments, List.flatMap_cons, List.flatMap_nil, List.append_nil,
    Argument.length_extra_ofField _ _ taken.bound, taken.length]

end Decoded

end WordAsm
