import WordAsm.Machine.Argument
import WordAsm.Machine.Word
import WordAsm.Preprocess.Macro
import WordAsm.Proofs.TextParsing

/-!
Plain texts: letters, digits and underscores only. The parser takes such a text for an operand, and
finds it again in square brackets and in a sum.
-/
namespace WordAsm

instance (priority := high) Text.decidableForallMem (p : Char → Prop) [DecidablePred p]
    (cs : List Char) : Decidable (∀ c ∈ cs, p c) :=
  List.decidableBAll p cs

/-- A property of all letters, digits and underscores is seen by trying those of ASCII. -/
theorem Macro.forall_wordChar {p : Char → Prop} [DecidablePred p]
    (tried : ∀ n < 128, isWordChar (Char.ofNat n) = true → p (Char.ofNat n)) {c : Char}
    (word : isWordChar c = true) : p c := by
  have bounded : ∀ d : Char, d.toNat < 128 → c.val ≤ d.val → c.toNat < 128 := by
    intro d small high
    exact Nat.lt_of_le_of_lt (UInt32.le_iff_toNat_le.1 high) small
  have small : c.toNat < 128 := by
    rcases Bool.or_eq_true_iff.1 word with alphanumeric | underscore
    · rcases Bool.or_eq_true_iff.1 alphanumeric with letter | digit
      · rcases Bool.or_eq_true_iff.1 letter with upper | lower
        · exact bounded 'Z' (by decide) (of_decide_eq_true upper).2
        · exact bounded 'z' (by decide) (of_decide_eq_true (Bool.and_eq_true_iff.1 lower).2)
      · exact bounded '9' (by decide) (of_decide_eq_true (Bool.and_eq_true_iff.1 digit).2)
    · rw [beq_iff_eq.1 underscore]
      decide
  have same : Char.ofNat c.toNat = c := Char.ofNat_toNat c
  have found := tried c.toNat small
  rw [same] at found
  exact found word

namespace Text

structure IsPlain (cs : List Char) : Prop where
  nonempty : cs ≠ []
  word : ∀ c ∈ cs, Macro.isWordChar c = true

theorem IsPlain.not_mem {cs : List Char} (plain : IsPlain cs) {c : Char}
    (other : Macro.isWordChar c = false) : c ∉ cs := by
  intro member
  rw [plain.word c member] at other
  cases other

theorem isBlank_word {c : Char} (word : Macro.isWordChar c = true) : isBlank c = false := by
  revert c
  exact Macro.forall_wordChar (p := fun c => isBlank c = false) (by decide)

theorem trimChars_of_notBlank {cs : List Char} (first : cs.head?.all (!isBlank ·) = true)
    (last : cs.getLast?.all (!isBlank ·) = true) : trimChars cs = cs := by
  have kept (ds : List Char) (first : ds.head?.all (!isBlank ·) = true) :
      ds.dropWhile isBlank = ds := by
    cases ds with
    | nil => rfl
    | cons d ds =>
      have filled : isBlank d = false := by simpa using first
      rw [List.dropWhile_cons_of_neg (by simp [filled])]
  rw [trimChars, kept cs first, kept cs.reverse (by rwa [List.head?_reverse]), List.reverse_reverse]

theorem trimChars_of_visible {cs : List Char} (visible : ∀ c ∈ cs, isBlank c = false) :
    trimChars cs = cs := by
  have filled (o : Option Char) (member : ∀ c ∈ o, c ∈ cs) : o.all (!isBlank ·) = true := by
    cases o with
    | none => rfl
    | some c => simp [visible c (member c rfl)]
  refine trimChars_of_notBlank (filled _ ?_) (filled _ ?_)
  · intro c first
    exact List.mem_of_mem_head? first
  · intro c last
    exact List.mem_of_getLast? last

theorem IsPlain.trimChars {cs : List Char} (plain : IsPlain cs) : trimChars cs = cs := by
  apply trimChars_of_visible
  intro c member
  exact isBlank_word (plain.word c member)

theorem isPlain_append {cs ds : List Char} (plain : IsPlain cs) (plain' : IsPlain ds) :
    IsPlain (cs ++ ds) := by
  refine ⟨by simp [plain.nonempty], ?_⟩
  intro c member
  rcases List.mem_append.1 member with member | member
  · exact plain.word c member
  · exact plain'.word c member

theorem mem_toDigits {base n : Nat} (least : 1 < base) {c : Char}
    (member : c ∈ Nat.toDigits base n) : ∃ d < base, c = d.digitChar := by
  induction n using Nat.strongRecOn with
  | ind n ih =>
    rw [Nat.toDigits_eq_if least] at member
    split at member
    · rename_i small
      exact ⟨n, small, by simpa using member⟩
    · rename_i large
      rcases List.mem_append.1 member with before | last
      · exact ih (n / base) (Nat.div_lt_self (by omega) least) before
      · exact ⟨n % base, Nat.mod_lt n (by omega), by simpa using last⟩

theorem isPlain_toString (n : Nat) : IsPlain (toString n).toList := by
  rw [Nat.toString_eq_ofList_toDigits, String.toList_ofList]
  refine ⟨Nat.toDigits_ne_nil, ?_⟩
  intro c member
  obtain ⟨d, bound, rfl⟩ := mem_toDigits (by decide) member
  have checked : ∀ d < 10, Macro.isWordChar d.digitChar = true := by decide
  exact checked d bound

theorem isPlain_hex (width n : Nat) : IsPlain (hex width n).toList := by
  rw [hex, String.toList_ofList, padLeft]
  refine ⟨by simp [hexChars], ?_⟩
  intro c member
  rcases List.mem_append.1 member with zero | digit
  · rw [List.eq_of_mem_replicate zero]
    rfl
  · obtain ⟨e, inside, rfl⟩ := List.mem_map.1 digit
    obtain ⟨d, bound, rfl⟩ := mem_toDigits (by decide : 1 < 16) inside
    have checked : ∀ d < 16, Macro.isWordChar d.digitChar.toUpper = true := by decide
    exact checked d bound

theorem isPlain_literal (w : UInt16) : IsPlain (Word.literal w).toList := by
  rw [Word.literal, String.toList_append]
  exact isPlain_append ⟨by decide, by decide⟩ (isPlain_hex 4 w.toNat)

theorem isPlain_register (r : Register) : IsPlain r.name.toList := by
  cases r <;> exact ⟨by decide, by decide⟩

end Text

namespace Expr.Parser

open Text (IsPlain)

theorem isSpace_word {c : Char} (word : Macro.isWordChar c = true) : isSpace c = false := by
  revert c
  exact Macro.forall_wordChar (p := fun c => isSpace c = false) (by decide)

theorem mark_word {c : Char} (word : Macro.isWordChar c = true) :
    Grammar.standard.mark? c = none := by
  revert c
  exact Macro.forall_wordChar (p := fun c => Grammar.standard.mark? c = none) (by decide +kernel)

/-- A plain text holds no operator and no bracket. -/
theorem scan_plain {cs : List Char} (plain : IsPlain cs) (start offset : Nat) (after : Bool)
    (rest : List Char) :
    ∃ offset', scan Grammar.standard start offset 0 after (cs ++ rest) =
      scan Grammar.standard (start + cs.length) offset' 0 false rest := by
  obtain ⟨nonempty, word⟩ := plain
  cases cs with
  | nil => exact absurd rfl nonempty
  | cons c cs =>
    exact scan_visible (isSpace_word (word c List.mem_cons_self))
      (fun d member => .inr (mark_word (word d member))) start offset after rest

theorem parseAt_plain {cs : List Char} (plain : IsPlain cs) (offset : Nat) :
    parseAt Grammar.standard offset cs = .ok (leaf (String.ofList cs) false) := by
  obtain ⟨offset', scanned⟩ := scan_plain plain 0 offset true []
  rw [List.append_nil] at scanned
  rw [parseAt_operand scanned, operand, plain.trimChars]
  cases cs with
  | nil => exact absurd rfl plain.nonempty
  | cons => rfl

theorem operator_plus {ds : List Char} (other : ds.head? ≠ some '=') :
    Grammar.standard.operator? ('+' :: ds) = some "+" := by
  have begins : ∀ op ∈ Grammar.standard.spellings,
      op = "+" ∨ op = "+=" ∨ op.toList.head?.all (· != '+') = true := by decide +kernel
  have only : ∀ op ∈ Grammar.standard.spellings,
      (op != "" && op.toList.isPrefixOf ('+' :: ds)) = (op == "+") := by
    intro op member
    rcases begins op member with rfl | rfl | different
    · rfl
    · cases ds with
      | nil => rfl
      | cons d ds =>
        have unequal : ('=' == d) = false := by
          rw [beq_eq_false_iff_ne]
          rintro rfl
          exact other rfl
        simp [List.isPrefixOf, unequal]
    · cases chars : op.toList with
      | nil =>
        have empty : op = "" := String.toList_inj.1 chars
        subst empty
        rfl
      | cons c cs =>
        rw [chars] at different
        have unequal : c ≠ '+' := by simpa using different
        have start : (c == '+') = false := beq_eq_false_iff_ne.2 unequal
        have name : (op == "+") = false := by
          rw [beq_eq_false_iff_ne]
          rintro rfl
          cases chars
          exact unequal rfl
        rw [List.isPrefixOf, start, name, Bool.false_and, Bool.and_false]
  rw [Grammar.operator?, List.filter_congr only]
  decide +kernel

theorem parseAt_sum {cs ds : List Char} (plain : IsPlain cs) (plain' : IsPlain ds) (offset : Nat) :
    parseAt Grammar.standard offset (cs ++ '+' :: ds) =
      .ok (binary "+" (leaf (String.ofList cs) false) (leaf (String.ofList ds) false) false) := by
  obtain ⟨offset₁, first⟩ := scan_plain plain 0 offset true ('+' :: ds)
  obtain ⟨offset₂, second⟩ := scan_plain plain' (cs.length + 1) (offset₁ + 1) true []
  have operator : Grammar.standard.operator? ('+' :: ds) = some "+" := by
    apply operator_plus
    intro equals
    exact absurd (plain'.word '=' (List.mem_of_mem_head? equals)) (by decide)
  have mark : Grammar.standard.mark? '+' = some (0, 43) := by decide +kernel
  have items : scan Grammar.standard 0 offset 0 true (cs ++ '+' :: ds) =
      .ok [⟨.operator "+" false, cs.length, 1, offset₁⟩] := by
    rw [List.append_nil] at second
    rw [first, Nat.zero_add, scan]
    simp only [mark, operator]
    change found _ (scan Grammar.standard (cs.length + 1) (offset₁ + 1) 0 true ds) = _
    rw [second]
    rfl
  have split : split? Grammar.standard [⟨.operator "+" false, cs.length, 1, offset₁⟩] =
      some (.between "+" ⟨.operator "+" false, cs.length, 1, offset₁⟩) := by
    rfl
  refine parseAt_between items rfl split ?_ ?_
  · simpa using parseAt_plain plain offset
  · simpa using parseAt_plain plain' _

def isBracket (c : Char) : Bool := c == '(' || c == '[' || c == ')' || c == ']'

theorem isBracket_word {c : Char} (word : Macro.isWordChar c = true) : isBracket c = false := by
  revert c
  exact Macro.forall_wordChar (p := fun c => isBracket c = false) (by decide)

theorem closing_inner {cs : List Char} (inner : ∀ c ∈ cs, isBracket c = false) :
    closing 1 (cs ++ [']']) = some (cs.length + 1) := by
  induction cs with
  | nil => rfl
  | cons c cs ih =>
    have here := inner c (by simp)
    simp only [isBracket, Bool.or_eq_false_iff] at here
    simp only [List.cons_append, closing, here.1.1.1, here.1.1.2, here.1.2, here.2, Bool.or_self,
      Bool.false_eq_true, if_false, ih (fun d member => inner d (by simp [member])),
      Option.map_some, List.length_cons]

theorem scan_skipped (g : Grammar) (start offset : Nat) (after : Bool) (cs : List Char) :
    scan g start offset cs.length after cs = .ok [] := by
  induction cs generalizing start offset with
  | nil => rfl
  | cons c cs ih => exact ih (start + 1) (offset + (Text.encodeChar c).length)

/-- What stands in square brackets alone is a group. -/
theorem parseAt_square {cs : List Char} {e : Expr} (inner : ∀ c ∈ cs, isBracket c = false)
    (parsed : ∀ offset, parseAt Grammar.standard offset cs = .ok e) (offset : Nat) :
    parseAt Grammar.standard offset ('[' :: cs ++ [']']) = .ok e.group := by
  have mark : Grammar.standard.mark? '[' = some (0, 91) := by decide +kernel
  have closed : closing 0 ('[' :: cs ++ [']']) = some (cs.length + 2) := by
    simp [closing, closing_inner inner]
  have scanned : scan Grammar.standard 0 offset 0 true ('[' :: cs ++ [']']) =
      .ok [⟨.bracket true, 0, cs.length + 2, offset⟩] := by
    rw [List.cons_append] at closed ⊢
    rw [scan]
    simp only [mark, closed]
    have skipped := scan_skipped Grammar.standard 1 (offset + 1) false (cs ++ [']'])
    rw [List.length_append, List.length_singleton] at skipped
    change found _ (scan Grammar.standard 1 (offset + 1) (cs.length + 1) false (cs ++ [']'])) = _
    rw [skipped]
    rfl
  have sole : soleBracket? ('[' :: cs ++ [']']) [⟨.bracket true, 0, cs.length + 2, offset⟩] =
      some (true, ⟨.bracket true, 0, cs.length + 2, offset⟩) := by
    simp [soleBracket?, isBlankText]
  refine parseAt_bracket scanned sole rfl ?_
  simpa using parsed (offset + 1)

end Expr.Parser

end WordAsm
