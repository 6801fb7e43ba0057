import WordAsm.Image.Disassembly
import WordAsm.Proofs.ArgumentTexts

/-!
The names that a disassembly gives to labels. They are words of the source language that mean
nothing else, and each of them names one label.
-/
namespace WordAsm

/-- What can be the name of a label: neither a register nor a local name. -/
structure IsMark (name : String) : Prop where
  uncalled : '(' ∉ name.toList
  unended : ':' ∉ name.toList
  letter : name.toList.head?.any Char.isAlpha = true
  figure : ∃ c ∈ name.toList, isFigure c = true

namespace IsMark

variable {name : String}

theorem exists_letter (mark : IsMark name) :
    ∃ c cs, name.toList = c :: cs ∧ c.isAlpha = true := by
  have letter := mark.letter
  cases chars : name.toList with
  | nil => simp [chars] at letter
  | cons c cs => exact ⟨c, cs, rfl, by simpa [chars] using letter⟩

theorem not_register (mark : IsMark name) : isRegister name = false := by
  obtain ⟨c, member, figure⟩ := mark.figure
  exact isRegister_figure member figure

theorem not_local (mark : IsMark name) : Symbols.isLocal name = false := by
  obtain ⟨c, cs, chars, alpha⟩ := mark.exists_letter
  have other : c ≠ '_' := by
    rintro rfl
    cases alpha
  simp [Symbols.isLocal, chars, other]

theorem usable (mark : IsMark name) : Symbols.isUnusable name = false := by
  have nonempty : name ≠ "" := by
    rintro rfl
    cases mark.letter
  simp [Symbols.isUnusable, nonempty, mark.not_register]

end IsMark

/-- A word that is neither a number nor a register, and no local name. -/
structure IsName (name : String) : Prop extends IsMark name where
  plain : Text.IsPlain name.toList

namespace IsName

variable {name : String}

theorem of_plain (plain : Text.IsPlain name.toList)
    (letter : name.toList.head?.any Char.isAlpha = true)
    (figure : ∃ c ∈ name.toList, isFigure c = true) : IsName name :=
  ⟨⟨plain.not_mem rfl, plain.not_mem rfl, letter, figure⟩, plain⟩

theorem not_number (named : IsName name) : Literal.number? name = none := by
  obtain ⟨c, cs, chars, alpha⟩ := named.exists_letter
  have other : Literal.digit? c = none ∧ c ≠ '0' := by
    have tried := Macro.forall_wordChar
      (p := fun c => c.isAlpha = true → Literal.digit? c = none ∧ c ≠ '0') (by decide)
      (named.plain.word c (by simp [chars]))
    exact tried alpha
  have decimal : Literal.digits 10 Literal.digit? (c :: cs) = none := by
    simp [Literal.digits, Literal.digitsFrom, other.1]
  have hexadecimal : Literal.readHex (c :: cs) = none := by
    unfold Literal.readHex
    split
    · rename_i same
      cases same
      exact absurd rfl other.2
    · rfl
  rw [Literal.number?, Literal.read, Literal.readChars, chars, decimal, hexadecimal]

theorem not_spelling (named : IsName name) : Field.ofText? name = none := by
  obtain ⟨c, member, figure⟩ := named.figure
  exact Field.ofText_figure member figure

theorem not_character (named : IsName name) : characterValue? name = none := by
  unfold characterValue?
  split
  · rename_i opening c closing chars
    have word := named.plain.word opening (by simp [chars])
    have other := Macro.forall_wordChar (p := fun c => (c == Text.apostrophe) = false) (by decide)
      word
    simp [other]
  · rfl

theorem append {front back : String} (plain : Text.IsPlain front.toList)
    (letter : front.toList.head?.any Char.isAlpha = true) (plain' : Text.IsPlain back.toList)
    {c : Char} (member : c ∈ (front ++ back).toList) (figure : isFigure c = true) :
    IsName (front ++ back) := by
  refine of_plain ?_ ?_ ⟨c, member, figure⟩
  · rw [String.toList_append]
    exact Text.isPlain_append plain plain'
  · obtain ⟨d, ds, chars⟩ := List.exists_cons_of_ne_nil plain.nonempty
    rw [chars] at letter
    rw [String.toList_append, chars]
    exact letter

end IsName

theorem Text.upper_append (s t : String) : upper (s ++ t) = upper s ++ upper t := by
  simp only [upper, String.toList_append, List.map_append, String.ofList_append]

theorem Text.upper_hex (width n : Nat) : upper (hex width n) = hex width n := by
  have fixed : ∀ c ∈ padLeft width '0' (hexChars n), upperChar c = c := by
    intro c member
    rcases List.mem_append.1 member with zero | digit
    · rw [List.eq_of_mem_replicate zero]
      rfl
    · obtain ⟨e, inside, rfl⟩ := List.mem_map.1 digit
      obtain ⟨d, bound, rfl⟩ := mem_toDigits (by decide : 1 < 16) inside
      have checked : ∀ d < 16, upperChar d.digitChar.toUpper = d.digitChar.toUpper := by decide
      exact checked d bound
  rw [upper, hex, String.toList_ofList, List.map_congr_left fixed, List.map_id']

theorem Text.upper_toString (n : Nat) : upper (toString n) = toString n := by
  have fixed : ∀ c ∈ Nat.toDigits 10 n, upperChar c = c := by
    intro c member
    obtain ⟨d, bound, rfl⟩ := mem_toDigits (by decide : 1 < 10) member
    have checked : ∀ d < 10, upperChar d.digitChar = d.digitChar := by decide
    exact checked d bound
  rw [upper, Nat.toString_eq_ofList_toDigits, String.toList_ofList, List.map_congr_left fixed,
    List.map_id']

theorem Text.upper_signed (n : Int) : upper (toString n) = toString n := by
  rcases toString_sign n with ⟨m, -, text⟩ | ⟨m, -, -, text⟩
  · rw [text, upper_toString]
  · rw [text, upper_append, upper_toString]
    rfl

theorem hex_injective {width m n : Nat} (same : Text.hex width m = Text.hex width n) : m = n := by
  have read := Literal.digits_hex width m
  rw [same, Literal.digits_hex] at read
  exact (Option.some.inj read).symm

namespace Disassembly

def labelStem : Transfer → String
  | .call => "sub_"
  | .jump => "loc_"

theorem labelName_eq (address : Nat) (kind : Transfer) :
    labelName address kind = labelStem kind ++ Text.hex 4 address := by
  cases kind <;> rfl

theorem isName_labelName (address : Nat) (kind : Transfer) : IsName (labelName address kind) := by
  have plain : Text.IsPlain (labelStem kind).toList := by
    cases kind <;> exact ⟨by decide, by decide⟩
  have letter : (labelStem kind).toList.head?.any Char.isAlpha = true := by cases kind <;> decide
  have underscore : '_' ∈ (labelStem kind).toList := by cases kind <;> decide
  rw [labelName_eq]
  refine IsName.append plain letter (Text.isPlain_hex 4 address) ?_
    (by decide : isFigure '_' = true)
  rw [String.toList_append]
  exact List.mem_append_left _ underscore

theorem labelKey_injective {a b : Nat} {kind kind' : Transfer}
    (same : Text.upper (labelName a kind) = Text.upper (labelName b kind')) :
    a = b ∧ kind = kind' := by
  have chars := congrArg String.toList same
  simp only [labelName_eq, Text.upper_append, Text.upper_hex, String.toList_append] at chars
  have length : (Text.upper (labelStem kind)).toList.length =
      (Text.upper (labelStem kind')).toList.length := by
    cases kind <;> cases kind' <;> decide +kernel
  obtain ⟨stems, digits⟩ := List.append_inj chars length
  refine ⟨hex_injective (String.toList_inj.1 digits), ?_⟩
  cases kind <;> cases kind' <;> revert stems <;> decide +kernel

/-- The name of a string. -/
def stringName (number : Int) : String := "string" ++ toString number

theorem isMark_stringName (number : Int) : IsMark (stringName number) := by
  have clean {c : Char} (word : Macro.isWordChar c = false) (sign : c ≠ '-') :
      c ∉ (stringName number).toList := by
    have plain : Text.IsPlain "string".toList := ⟨by decide, by decide⟩
    rw [stringName, String.toList_append, List.mem_append, not_or]
    refine ⟨plain.not_mem word, ?_⟩
    rcases toString_sign number with ⟨m, -, text⟩ | ⟨m, -, -, text⟩
    · rw [text]
      exact (Text.isPlain_toString m).not_mem word
    · rw [text, String.toList_append, List.mem_append, not_or]
      exact ⟨by simpa using sign, (Text.isPlain_toString m).not_mem word⟩
  refine ⟨clean rfl (by decide), clean rfl (by decide), ?_, ?_⟩
  · rw [stringName, String.toList_append]
    rfl
  rcases toString_sign number with ⟨m, -, text⟩ | ⟨m, -, -, text⟩ <;>
  · obtain ⟨c, member, figure⟩ := exists_figure m
    refine ⟨c, ?_, figure⟩
    simp only [stringName, text, String.toList_append, List.mem_append, member, or_true]

theorem stringKey_injective {m n : Int}
    (same : Text.upper (stringName m) = Text.upper (stringName n)) : m = n := by
  have chars := congrArg String.toList same
  simp only [stringName, Text.upper_append, Text.upper_signed, String.toList_append,
    List.append_cancel_left_eq] at chars
  exact toString_injective (String.toList_inj.1 chars)

theorem stringKey_ne (number : Int) (address : Nat) (kind : Transfer) :
    Text.upper (stringName number) ≠ Text.upper (labelName address kind) := by
  intro same
  have chars := congrArg String.toList same
  have string : (Text.upper "string").toList = ['S', 'T', 'R', 'I', 'N', 'G'] := by decide +kernel
  have call : (Text.upper "sub_").toList = ['S', 'U', 'B', '_'] := by decide +kernel
  have jump : (Text.upper "loc_").toList = ['L', 'O', 'C', '_'] := by decide +kernel
  rw [stringName, labelName_eq, Text.upper_append, Text.upper_append, String.toList_append,
    String.toList_append, string] at chars
  cases kind with
  | call => simp [labelStem, call] at chars
  | jump => simp [labelStem, jump] at chars

end Disassembly

end WordAsm
