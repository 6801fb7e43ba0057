import WordAsm.Proofs.ArgumentTexts
import WordAsm.Proofs.PrecedenceParsing
import WordAsm.Proofs.WrittenLines

/-!
Integers as operands of directives. An integer of 63 bits and a sign is read back from its decimal
text, and a line with a directive and such a text has these two tokens.
-/
namespace WordAsm

namespace Expr.Parser

theorem parseAt_minus {cs : List Char} (plain : Text.IsPlain cs) (offset : Nat) :
    parseAt Grammar.standard offset ('-' :: cs) =
      .ok (unary "-" (leaf (String.ofList cs) false) false) := by
  have member : "-" ∈ ["!", "~", "-"] := by decide
  obtain ⟨d, ds, rfl⟩ := List.exists_cons_of_ne_nil plain.nonempty
  have ends := endsOperators_word (plain.word d List.mem_cons_self)
  obtain ⟨offset₁, first⟩ := scan_operator (isOperator_unary member) ends 0 offset true ds
  obtain ⟨offset₂, second⟩ := scan_plain plain (0 + "-".length) offset₁ true []
  rw [List.append_nil] at second
  have scanned : scan Grammar.standard 0 offset 0 true ('-' :: d :: ds) =
      .ok [⟨.operator "-" true, 0, "-".length, offset⟩] := by
    refine first.trans ?_
    rw [second]
    rfl
  refine parseAt_leading scanned (soleBracket_operator [] []) (split_leading member rfl (by simp))
    rfl ?_
  exact parseAt_plain plain _

end Expr.Parser

theorem Expr.parse_minus {text : String} (plain : Text.IsPlain text.toList) :
    Expr.parse ("-" ++ text) = .ok (.unary "-" (.leaf text false) false) := by
  have chars : ("-" ++ text).toList = '-' :: text.toList := by
    rw [String.toList_append]
    rfl
  rw [Expr.parse, Expr.parseWith_eq, chars, Expr.Parser.parseAt_minus plain, String.ofList_toList]

namespace Symbols

variable (s : Symbols) (line : Line)

theorem build_negative {text : String} {n : Int64} (plain : Text.IsPlain text.toList)
    (numeral : Literal.number? text = some n) :
    s.build line ("-" ++ text) = .ok (.number (-n) false) := by
  rw [build, Expr.parse_minus plain]
  simp only [Expr.simplify, Expr.askSymbol, numeral]
  rfl

theorem literal_of_build {text : String} {n : Int64} {grouped : Bool}
    (built : s.build line text = .ok (.number n grouped)) : s.literal line text = .ok n := by
  rw [literal, built]

/-- The text of an integer has its value wherever it stands. -/
theorem literal_toString {n : Int} (bound : n.natAbs < 1 <<< 63) :
    ∃ v : Int64, s.literal line (toString n) = .ok v ∧ v.toInt = n := by
  rcases toString_sign n with ⟨m, rfl, text⟩ | ⟨m, -, rfl, text⟩
  · have small : m < 1 <<< 63 := by simpa using bound
    have built := s.build_numeral line (Text.isPlain_toString m) (Literal.number_toString small)
    rw [text]
    exact ⟨_, s.literal_of_build line built, Int64.toInt_ofNat_of_lt small⟩
  · have small : m < 1 <<< 63 := by simpa using bound
    have built := s.build_negative line (Text.isPlain_toString m) (Literal.number_toString small)
    rw [text]
    refine ⟨_, s.literal_of_build line built, ?_⟩
    rw [Int64.toInt_neg, Int64.toInt_ofNat_of_lt small]
    rw [Int.bmod_eq_of_le] <;> omega

end Symbols

namespace Tokenizer

theorem isSolid_toString (n : Int) : IsSolid (toString n).toList := by
  rcases toString_sign n with ⟨m, rfl, text⟩ | ⟨m, -, rfl, text⟩
  · rw [text]
    exact isSolid_of_plain (Text.isPlain_toString m)
  · have sign : IsSolid "-".toList := ⟨by decide, by decide, by decide, by decide⟩
    rw [text, String.toList_append]
    exact sign.append (isSolid_of_plain (Text.isPlain_toString m))

theorem wholeLines_rep {text : String} (solid : IsSolid text.toList) :
    wholeLines? (".rep " ++ text ++ "\n") = some [[".rep", text]] := by
  have named : IsSolid ".rep".toList := ⟨by decide, by decide, by decide, by decide⟩
  have chars : (".rep " ++ text ++ "\n").toList = ".rep".toList ++
      ' ' :: (text.toList ++ ['\n']) := by
    rw [String.toList_append, String.toList_append, List.append_assoc]
    rfl
  have written := @Writes.statement ".rep" named.isToken [text] (by simp)
    (by simpa using solid.isToken) _ Scan.isBreak_newline 0 0
  rw [String.intercalate_singleton] at written
  apply Writes.wholeLines
  rw [chars]
  exact written

end Tokenizer

end WordAsm
