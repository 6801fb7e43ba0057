import Mathlib.Data.List.Forall2
import WordAsm.Proofs.SignedNumerals

/-!
Number literals as expressions. The decimal text of an integer of 63 bits and a sign, and any
spelling of 64 bits in hexadecimal, parse to a tree that is folded to the number by itself. A sign
is an operator; what stands behind it, or alone, is never taken for a symbol.
-/
namespace WordAsm

namespace Literal

def IsSpelling (c d : Char) : Prop := c = d ∨ c = d.toUpper

instance (c d : Char) : Decidable (IsSpelling c d) :=
  inferInstanceAs (Decidable (c = d ∨ c = d.toUpper))

def SpellsHex (n : Nat) (digits : List Char) : Prop :=
  ∃ zeros, digits.Forall₂ IsSpelling (List.replicate zeros '0' ++ Nat.toDigits 16 n)

theorem spelling_digit {c : Char} {d : Nat} (bound : d < 16) (spelled : IsSpelling c d.digitChar) :
    hexDigit? c = some d ∧ Macro.isWordChar c = true := by
  have lower : ∀ d < 16, hexDigit? d.digitChar = some d ∧
      Macro.isWordChar d.digitChar = true := by decide
  have upper : ∀ d < 16, hexDigit? d.digitChar.toUpper = some d ∧
      Macro.isWordChar d.digitChar.toUpper = true := by decide
  rcases spelled with rfl | rfl
  · exact lower d bound
  · exact upper d bound

theorem digitsFrom_spelled {cs ds : List Char} (spelled : cs.Forall₂ IsSpelling ds)
    (digits : ∀ d ∈ ds, ∃ k < 16, d = k.digitChar) :
    (∀ n, digitsFrom 16 hexDigit? n cs = digitsFrom 16 hexDigit? n ds) ∧
      ∀ c ∈ cs, Macro.isWordChar c = true := by
  induction spelled with
  | nil => simp
  | cons first later ih =>
    obtain ⟨⟨k, bound, rfl⟩, others⟩ := List.forall_mem_cons.1 digits
    obtain ⟨same, words⟩ := ih others
    obtain ⟨here, word⟩ := spelling_digit bound first
    obtain ⟨plain, _⟩ := spelling_digit bound (.inl rfl)
    constructor
    · intro n
      simp only [digitsFrom, here, plain, same]
    · exact List.forall_mem_cons.2 ⟨word, words⟩

theorem SpellsHex.read {n : Nat} {digits : List Char} (spells : SpellsHex n digits) :
    Literal.digits 16 hexDigit? digits = some n ∧ Text.IsPlain digits := by
  obtain ⟨zeros, spelled⟩ := spells
  have members : ∀ d ∈ List.replicate zeros '0' ++ Nat.toDigits 16 n,
      ∃ k < 16, d = k.digitChar := by
    intro d member
    rcases List.mem_append.1 member with zero | digit
    · exact ⟨0, by omega, List.eq_of_mem_replicate zero⟩
    · exact Text.mem_toDigits (by omega) digit
  obtain ⟨same, words⟩ := digitsFrom_spelled spelled members
  have filled : digits ≠ [] := by
    rintro rfl
    have length := spelled.length_eq
    have some := List.length_pos_of_ne_nil (@Nat.toDigits_ne_nil n 16)
    rw [List.length_append, List.length_nil] at length
    omega
  have value := digitsFrom_toDigits hexDigit? id (by omega : 1 < 16) (by decide) n
  rw [List.map_id] at value
  constructor
  · rw [digits_eq _ filled, same, digitsFrom_zeros rfl, value]
  · exact ⟨filled, words⟩

theorem number_spelled {n : Nat} {x : Char} {digits : List Char} (spells : SpellsHex n digits)
    (bound : n < UInt64.size) (marked : x = 'x' ∨ x = 'X') :
    number? (String.ofList ('0' :: x :: digits)) = some (Int64.ofNat n) ∧
      Text.IsPlain ('0' :: x :: digits) := by
  obtain ⟨value, plain⟩ := spells.read
  have decimal : Literal.digits 10 digit? ('0' :: x :: digits) = none := by
    rcases marked with rfl | rfl <;> rfl
  have hexadecimal : readHex ('0' :: x :: digits) = some n := by
    rcases marked with rfl | rfl <;> exact value
  constructor
  · rw [number?, read, String.toList_ofList, readChars, decimal, hexadecimal]
    simp only [ofHex, if_pos (show n < 1 <<< 64 from bound)]
  · have word : Macro.isWordChar x = true := by
      rcases marked with rfl | rfl <;> rfl
    exact ⟨by simp, List.forall_mem_cons.2 ⟨rfl, List.forall_mem_cons.2 ⟨word, plain.word⟩⟩⟩

end Literal

namespace Expr

/-- The text is an expression that is folded to this number without a resolver. -/
def Denotes (text : String) (v : Int64) : Prop :=
  ∃ tree, parse text = .ok tree ∧
    tree.simplify (Resolver.silent : Resolver Empty) = .ok (.number v false)

def IsNeverSymbol (text : String) : Prop := ∀ grouped, (leaf text grouped).isSymbol = false

theorem isNeverSymbol_numeral {text : String} {v : Int64}
    (numeral : Literal.number? text = some v) : IsNeverSymbol text := by
  intro grouped
  simp [isSymbol, symbol?, numeral]

theorem denotes_numeral {text : String} {v : Int64} (plain : Text.IsPlain text.toList)
    (numeral : Literal.number? text = some v) : Denotes text v := by
  refine ⟨_, Symbols.parse_plain plain, ?_⟩
  simp only [simplify, askSymbol, numeral]

/-- Literals stand for the numbers they are written for: decimal ones with 63 bits, which a minus
sign may negate, and hexadecimal ones with 64 bits, of which the highest is then the sign. -/
theorem literals_denote_their_numbers :
    (∀ n : Int, -Int64.maxValue.toInt ≤ n → n ≤ Int64.maxValue.toInt →
      ∃ v, Denotes (toString n) v ∧ v.toInt = n ∧ (0 ≤ n → IsNeverSymbol (toString n)) ∧
        (n < 0 → ∃ text, parse (toString n) = .ok (.unary "-" (.leaf text false) false) ∧
          IsNeverSymbol text)) ∧
    ∀ (n : Nat) (x : Char) (digits : List Char), n < UInt64.size → x = 'x' ∨ x = 'X' →
      Literal.SpellsHex n digits →
      ∃ v, Denotes (String.ofList ('0' :: x :: digits)) v ∧ v.toInt = (n : Int).bmod UInt64.size ∧
        IsNeverSymbol (String.ofList ('0' :: x :: digits)) := by
  constructor
  · intro n lower upper
    have greatest : Int64.maxValue.toInt = 9223372036854775807 := rfl
    rcases toString_sign n with ⟨m, rfl, text⟩ | ⟨m, positive, rfl, text⟩
    · have small : m < 1 <<< 63 := by omega
      have numeral := Literal.number_toString small
      rw [text]
      refine ⟨Int64.ofNat m, denotes_numeral (Text.isPlain_toString m) numeral,
        Int64.toInt_ofNat_of_lt small, ?_, ?_⟩
      · intro _
        exact isNeverSymbol_numeral numeral
      · intro negative
        omega
    · have small : m < 1 <<< 63 := by omega
      have numeral := Literal.number_toString small
      have parsed := parse_minus (Text.isPlain_toString m)
      rw [text]
      refine ⟨-Int64.ofNat m, ⟨_, parsed, ?_⟩, ?_, ?_, ?_⟩
      · simp only [simplify, askSymbol, numeral]
        rfl
      · rw [Int64.toInt_neg, Int64.toInt_ofNat_of_lt small]
        rw [Int.bmod_eq_of_le] <;> omega
      · intro natural
        omega
      · intro _
        exact ⟨toString m, parsed, isNeverSymbol_numeral numeral⟩
  · intro n x digits bound marked spells
    obtain ⟨numeral, plain⟩ := Literal.number_spelled spells bound marked
    rw [← @String.toList_ofList ('0' :: x :: digits)] at plain
    exact ⟨Int64.ofNat n, denotes_numeral plain numeral, Int64.toInt_ofNat',
      isNeverSymbol_numeral numeral⟩

-- The least decimal, and a spelling with zeros and both cases that has its highest bit set.
theorem literals_denote_their_numbers_wide :
    (∃ v, Denotes "-9223372036854775807" v ∧ v.toInt = -9223372036854775807) ∧
    Literal.SpellsHex 0xFEDCBA9876543210 "00fEdCbA9876543210".toList ∧
    ∃ v, Denotes "0X00fEdCbA9876543210" v ∧ v.toInt = -81985529216486896 := by
  obtain ⟨decimal, hexadecimal⟩ := literals_denote_their_numbers
  have spells : Literal.SpellsHex 0xFEDCBA9876543210 "00fEdCbA9876543210".toList :=
    ⟨2, by decide +kernel⟩
  refine ⟨?_, spells, ?_⟩
  · obtain ⟨v, denotes, value, _⟩ := decimal (-9223372036854775807) (by decide) (by decide)
    exact ⟨v, denotes, value⟩
  · obtain ⟨v, denotes, value, _⟩ := hexadecimal _ 'X' _ (by decide) (.inr rfl) spells
    exact ⟨v, denotes, value⟩

end Expr

end WordAsm
