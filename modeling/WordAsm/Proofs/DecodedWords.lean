import WordAsm.Proofs.InstructionWord

/-!
The words of a decoded instruction: encoding it again gives the words that it was decoded from.
-/
namespace WordAsm

namespace Word

theorem toNat_opcode (w : UInt16) : (opcode w).toNat = w.toNat % 16 := by
  rw [opcode, UInt16.toNat_and, show opcodeMask.toNat = 2 ^ 4 - 1 from rfl,
    Nat.and_two_pow_sub_one_eq_mod]

theorem toNat_first (w : UInt16) : (first w).toNat = w.toNat / 16 % 64 := by
  rw [first, UInt16.toNat_and, UInt16.toNat_shiftRight, show fieldMask.toNat = 2 ^ 6 - 1 from rfl,
    Nat.and_two_pow_sub_one_eq_mod, Nat.shiftRight_eq_div_pow,
    show (4 : UInt16).toNat % 16 = 4 from rfl]

theorem toNat_second (w : UInt16) : (second w).toNat = w.toNat / 1024 % 64 := by
  rw [second, UInt16.toNat_and, UInt16.toNat_shiftRight, show fieldMask.toNat = 2 ^ 6 - 1 from rfl,
    Nat.and_two_pow_sub_one_eq_mod, Nat.shiftRight_eq_div_pow,
    show (10 : UInt16).toNat % 16 = 10 from rfl]

theorem first_bound (w : UInt16) : (first w).toNat < 64 := by
  rw [toNat_first]
  omega

theorem second_bound (w : UInt16) : (second w).toNat < 64 := by
  rw [toNat_second]
  omega

theorem encode_fields (w : UInt16) : encode (opcode w) (first w) (second w) = w := by
  have bound := w.toNat_lt
  apply UInt16.toNat_inj.1
  rw [toNat_encode (by rw [toNat_opcode]; omega) (first_bound w) (second_bound w), toNat_opcode,
    toNat_first, toNat_second]
  omega

end Word

namespace Argument

/-- The field of an operand. -/
def code : Argument → UInt16
  | register r => r.index
  | indirect r => Field.indirect + r.index
  | displaced _ r => Field.displaced + r.index
  | pop => Field.pop
  | peek => Field.peek
  | push => Field.push
  | sp => Field.sp
  | pc => Field.pc
  | overflow => Field.overflow
  | memory _ => Field.memory
  | word _ => Field.nextWord
  | short v => Field.literal + v

def fits : Argument → Bool
  | short v => v ≤ Field.maxLiteral
  | _ => true

section

variable {code : UInt16} (next : UInt16)

theorem forall_code {p : UInt16 → Prop} (tried : ∀ n < 64, p (UInt16.ofNat n))
    (bound : code.toNat < 64) : p code := by
  have found := tried code.toNat bound
  rwa [UInt16.ofNat_toNat] at found

theorem code_ofField (bound : code.toNat < 64) : (ofField code next).code = code := by
  have alone : (ofField code next).code = (ofField code 0).code := by
    simp only [ofField, apply_ite Argument.code]
    simp only [Argument.code]
  rw [alone]
  exact forall_code (p := fun code => (ofField code 0).code = code) (by decide +kernel) bound

theorem fits_ofField (bound : code.toNat < 64) : (ofField code next).fits = true := by
  have alone : (ofField code next).fits = (ofField code 0).fits := by
    simp only [ofField, apply_ite fits]
    simp only [fits]
  rw [alone]
  exact forall_code (p := fun code => (ofField code 0).fits = true) (by decide +kernel) bound

theorem extra_ofField (bound : code.toNat < 64) :
    (ofField code next).extra = if Field.hasNextWord code then [next] else [] := by
  have alone : (ofField code next).extra = (ofField code 0).extra.map fun _ => next := by
    simp only [ofField, apply_ite extra, apply_ite (List.map fun _ => next)]
    simp only [extra, List.map_cons, List.map_nil]
  have first : (ofField code 0).extra = if Field.hasNextWord code then [0] else [] :=
    forall_code (p := fun code => (ofField code 0).extra =
      if Field.hasNextWord code then [0] else []) (by decide +kernel) bound
  rw [alone, first]
  split <;> rfl

end

end Argument

namespace Decoded

/-- The words of an instruction. -/
def words : Decoded → List UInt16
  | basic op a b => Word.encode op.opcode a.code b.code :: (a.extra ++ b.extra)
  | special op a => Word.encode 0 op.opcode a.code :: a.extra
  | raw w => [w]

theorem length_words (d : Decoded) : d.words.length = d.size := by
  cases d with
  | basic op a b => simp [words, size, arguments, Nat.add_comm]
  | special op a => simp [words, size, arguments, Nat.add_comm]
  | raw w => rfl

theorem operand_ok {code : UInt16} {rest later : List UInt16} {a : Argument}
    (bound : code.toNat < 64) (found : operand? code rest = some (a, later)) :
    a.code = code ∧ a.fits = true ∧ rest = a.extra ++ later := by
  unfold operand? at found
  split at found
  · rename_i next
    split at found
    · rename_i w later'
      cases found
      refine ⟨Argument.code_ofField w bound, Argument.fits_ofField w bound, ?_⟩
      rw [Argument.extra_ofField w bound, if_pos next]
      rfl
    · cases found
  · rename_i next
    cases found
    refine ⟨Argument.code_ofField 0 bound, Argument.fits_ofField 0 bound, ?_⟩
    rw [Argument.extra_ofField 0 bound, if_neg next]
    rfl

theorem special_ok {w : UInt16} {rest : List UInt16} {d : Decoded} (zero : Word.opcode w = 0)
    (found : special? w rest = some d) :
    (∀ a ∈ d.arguments, a.fits = true) ∧ ∃ later, w :: rest = d.words ++ later := by
  obtain ⟨op, named, found⟩ := Option.bind_eq_some_iff.1 found
  obtain ⟨⟨a, later⟩, read, found⟩ := Option.bind_eq_some_iff.1 found
  cases found
  obtain ⟨code, fits, rfl⟩ := operand_ok (Word.second_bound w) read
  have same : op.opcode = Word.first w := by simpa using List.find?_some named
  refine ⟨by simp [arguments, fits], later, ?_⟩
  rw [words, same, code, ← zero, Word.encode_fields]
  rfl

theorem basic_ok {w : UInt16} {rest : List UInt16} {d : Decoded} (found : basic? w rest = some d) :
    (∀ a ∈ d.arguments, a.fits = true) ∧ ∃ later, w :: rest = d.words ++ later := by
  obtain ⟨op, named, found⟩ := Option.bind_eq_some_iff.1 found
  obtain ⟨⟨a, later⟩, read, found⟩ := Option.bind_eq_some_iff.1 found
  obtain ⟨⟨b, later'⟩, read', found⟩ := Option.bind_eq_some_iff.1 found
  cases found
  obtain ⟨code, fits, rfl⟩ := operand_ok (Word.first_bound w) read
  obtain ⟨code', fits', rfl⟩ := operand_ok (Word.second_bound w) read'
  have same : op.opcode = Word.opcode w := by simpa using List.find?_some named
  refine ⟨by simp [arguments, fits, fits'], later', ?_⟩
  rw [words, same, code, code', Word.encode_fields]
  simp

theorem ofWords_ok (w : UInt16) (rest : List UInt16) :
    (∀ a ∈ (ofWords w rest).arguments, a.fits = true) ∧
      ∃ later, w :: rest = (ofWords w rest).words ++ later := by
  unfold ofWords
  split
  · rename_i zero
    cases found : special? w rest with
    | none => exact ⟨by simp [arguments], rest, rfl⟩
    | some d => exact special_ok (by simpa using zero) found
  · cases found : basic? w rest with
    | none => exact ⟨by simp [arguments], rest, rfl⟩
    | some d => exact basic_ok found

theorem words_ofWords (w : UInt16) (rest : List UInt16) :
    (w :: rest).take (ofWords w rest).size = (ofWords w rest).words := by
  obtain ⟨later, split⟩ := (ofWords_ok w rest).2
  rw [split, ← length_words, List.take_left]

end Decoded

end WordAsm
