import WordAsm.Expr.Basic
import WordAsm.Machine.Word

/-!
Numerals are read back as the numbers they were written for.
-/
namespace WordAsm.Literal

section

variable {base : Nat} (digit? : Char → Option Nat)

theorem digitsFrom_append (n : Nat) (cs ds : List Char) :
    digitsFrom base digit? n (cs ++ ds) =
      (digitsFrom base digit? n cs).bind fun m => digitsFrom base digit? m ds := by
  induction cs generalizing n with
  | nil => rfl
  | cons c cs ih =>
    simp only [List.cons_append, digitsFrom]
    split
    · exact ih _
    · rfl

theorem digitsFrom_toDigits (spell : Char → Char) (least : 1 < base)
    (spelled : ∀ d < base, digit? (spell d.digitChar) = some d) (n : Nat) :
    digitsFrom base digit? 0 ((Nat.toDigits base n).map spell) = some n := by
  induction n using Nat.strongRecOn with
  | ind n ih =>
    rw [Nat.toDigits_eq_if least]
    split
    · rename_i small
      simp [digitsFrom, spelled n small]
    · rename_i large
      have before : n / base < n := Nat.div_lt_self (by omega) least
      have last : n % base < base := Nat.mod_lt n (by omega)
      rw [List.map_append, digitsFrom_append, ih (n / base) before]
      simp [digitsFrom, spelled _ last, Nat.div_add_mod']

theorem digitsFrom_zeros {digit? : Char → Option Nat} (zero : digit? '0' = some 0)
    (k : Nat) (cs : List Char) :
    digitsFrom base digit? 0 (List.replicate k '0' ++ cs) = digitsFrom base digit? 0 cs := by
  induction k with
  | zero => rfl
  | succ k ih => simp [List.replicate_succ, digitsFrom, zero, ih]

theorem digits_eq {cs : List Char} (some : cs ≠ []) :
    digits base digit? cs = digitsFrom base digit? 0 cs := by
  cases cs with
  | nil => exact absurd rfl some
  | cons c cs => rfl

end

theorem digits_toString (n : Nat) : digits 10 digit? (toString n).toList = some n := by
  have read := digitsFrom_toDigits digit? id (by decide : 1 < 10) (by decide) n
  rw [List.map_id] at read
  rw [Nat.toString_eq_ofList_toDigits, String.toList_ofList, digits_eq _ Nat.toDigits_ne_nil, read]

theorem number_toString {n : Nat} (bound : n < 1 <<< 63) :
    number? (toString n) = some (Int64.ofNat n) := by
  rw [number?, read, readChars, digits_toString]
  simp only [ofDecimal, if_pos bound]

theorem digits_hex (width n : Nat) : digits 16 hexDigit? (Text.hex width n).toList = some n := by
  have read := digitsFrom_toDigits hexDigit? Char.toUpper (by decide : 1 < 16) (by decide) n
  have some : Text.padLeft width '0' (Text.hexChars n) ≠ [] := by
    simp [Text.padLeft, Text.hexChars]
  rw [Text.hex, String.toList_ofList, digits_eq _ some, Text.padLeft, digitsFrom_zeros rfl,
    Text.hexChars, read]

theorem number_literal (w : UInt16) : number? (Word.literal w) = some (Int64.ofNat w.toNat) := by
  have chars : (Word.literal w).toList = '0' :: 'x' :: (Text.hex 4 w.toNat).toList := by
    rw [Word.literal, String.toList_append]
    rfl
  have decimal : digits 10 digit? (Word.literal w).toList = none := by
    rw [chars]
    rfl
  have hexadecimal : readHex (Word.literal w).toList = some w.toNat := by
    rw [chars, readHex, if_pos (by decide), digits_hex]
  have bound : w.toNat < 1 <<< 64 := Nat.lt_trans w.toNat_lt (by decide)
  rw [number?, read, readChars, decimal, hexadecimal]
  simp only [ofHex, if_pos bound]

end WordAsm.Literal

namespace WordAsm

/-- An integer is its size in decimal, with a minus before it if it is negative. -/
theorem toString_sign (n : Int) :
    (∃ m : Nat, n = m ∧ toString n = toString m) ∨
      ∃ m : Nat, 0 < m ∧ n = -m ∧ toString n = "-" ++ toString m := by
  cases n with
  | ofNat m => exact .inl ⟨m, rfl, rfl⟩
  | negSucc m => exact .inr ⟨m + 1, m.succ_pos, rfl, rfl⟩

theorem toString_injective {m n : Int} (same : toString m = toString n) : m = n := by
  have unsigned (k l : Nat) : toString k ≠ "-" ++ toString l := by
    intro same
    have read := Literal.digits_toString k
    rw [same, String.toList_append] at read
    cases read
  rcases toString_sign m with ⟨k, rfl, text⟩ | ⟨k, -, rfl, text⟩ <;>
    rcases toString_sign n with ⟨l, rfl, text'⟩ | ⟨l, -, rfl, text'⟩ <;>
    rw [text, text'] at same
  · have read := Literal.digits_toString k
    rw [same, Literal.digits_toString] at read
    rw [Option.some.inj read]
  · exact absurd same (unsigned k l)
  · exact absurd same.symm (unsigned l k)
  · have read := Literal.digits_toString k
    rw [String.append_right_inj] at same
    rw [same, Literal.digits_toString] at read
    rw [Option.some.inj read]

end WordAsm
