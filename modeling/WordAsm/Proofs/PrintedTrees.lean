import WordAsm.Proofs.PrecedenceParsing

/-!
Printing of parsed trees. A tree that the parser makes has operators of the table, and its leaves
are texts without blanks at their ends; with brackets around every operator it is read again as it
was, unless a name stands before an argument, which is printed with a word that is no operator. Main
statement: the parser inverts the printing of what it has parsed.
-/
namespace WordAsm

namespace Expr

open Precedence

/-- Somewhere in the tree a name stands before an argument in round brackets. -/
def hasCall : Expr → Bool
  | unary _ e _ => e.hasCall
  | binary op l r _ => op == callOp || l.hasCall || r.hasCall
  | leaf .. | number .. | absent => false

def IsGrammatical : Expr → Prop
  | leaf text _ => Parser.IsPhrase text.toList
  | unary op e _ => op ∈ ["!", "~", "-"] ∧ e.IsGrammatical
  | binary op l r _ =>
    (op ∈ binaryOperators ∨ op = callOp) ∧ l.IsGrammatical ∧ r.IsGrammatical
  | number .. | absent => False

theorem IsGrammatical.group {e : Expr} (grammatical : e.IsGrammatical) :
    e.group.IsGrammatical := by
  cases e <;> exact grammatical

namespace Parser

/-! What the parser makes. -/

theorem mem_slice {src : Array Char} {lo hi : Nat} {c : Char} (member : c ∈ slice src lo hi) :
    ∃ j, lo ≤ j ∧ j < lo + (hi - lo) ∧ charAt src j = c := by
  obtain ⟨k, bound, rfl⟩ := List.mem_iff_getElem.1 member
  have size : k < min (hi - lo) (src.size - lo) := by simpa [slice] using bound
  refine ⟨lo + k, Nat.le_add_right lo k, by omega, ?_⟩
  have inside : lo + k < src.size := by omega
  simp [charAt, slice, inside]

theorem free_of_scanAt {g : Grammar} {src : Array Char} {i offset left : Nat} {after : Bool}
    (scanned : scanAt g src i offset 0 after left = .ok []) {j : Nat} (least : i ≤ j)
    (most : j < i + left) : isSpace (charAt src j) = true ∨ g.mark? (charAt src j) = none := by
  induction left generalizing i offset after with
  | zero => omega
  | succ left ih =>
    have nothing {item : Item} {later : Found (List Item)} : found item later ≠ .ok [] := by
      intro ok
      obtain ⟨rest, -, filled⟩ := found_ok ok
      cases filled
    have later {offset : Nat} {after : Bool}
        (scanned : scanAt g src (i + 1) offset 0 after left = .ok []) (other : j ≠ i) :
        isSpace (charAt src j) = true ∨ g.mark? (charAt src j) = none :=
      ih scanned (by omega) (by omega)
    simp only [scanAt] at scanned
    split at scanned
    · rename_i space
      rcases Decidable.em (j = i) with rfl | other
      · exact .inl space
      · exact later scanned other
    · split at scanned
      · rename_i unmarked
        rcases Decidable.em (j = i) with rfl | other
        · exact .inr unmarked
        · exact later scanned other
      · split at scanned
        · split at scanned
          · cases scanned
          · exact absurd scanned nothing
        · split at scanned
          · exact absurd scanned nothing
          · cases scanned

theorem isPhrase_trimChars {cs : List Char} (filled : Text.trimChars cs ≠ [])
    (free : ∀ c ∈ cs, isSpace c = true ∨ Grammar.standard.mark? c = none) :
    IsPhrase (Text.trimChars cs) := by
  have front : Text.trimChars cs <+: cs.dropWhile Text.isBlank := by
    rw [← List.reverse_suffix, Text.trimChars, List.reverse_reverse]
    exact List.dropWhile_suffix _
  refine ⟨filled, ?_, ?_, ?_⟩
  · have first := List.head_dropWhile_not Text.isBlank (front.ne_nil filled)
    rw [← front.head filled] at first
    rw [List.head?_eq_some_head filled]
    simp [first]
  · have last := List.head?_dropWhile_not Text.isBlank (cs.dropWhile Text.isBlank).reverse
    rw [Text.trimChars, List.getLast?_reverse]
    revert last
    cases ((cs.dropWhile Text.isBlank).reverse.dropWhile Text.isBlank).head? with
    | none => simp
    | some c => simp
  · intro c member
    exact free c ((List.dropWhile_suffix _).mem (front.mem member))

theorem binary_of_group : ∀ op ∈ Grammar.standard.spellings,
    (Grammar.standard.group? op).isSome = true → op ∈ binaryOperators := by decide +kernel

theorem unary_of_group : ∀ op ∈ Grammar.standard.spellings,
    (Grammar.standard.group? ("@" ++ op)).isSome = true → (op == "+") = false →
      op ∈ ["!", "~", "-"] := by decide +kernel

theorem spelling_of_shape {g : Grammar} {src : Array Char} {lo hi : Nat} {s : Split}
    (shaped : shape g src lo hi = .ok (.split s)) :
    s.IsOf g ∧ ∀ op isUnary, s.item.mark = .operator op isUnary → op ∈ g.spellings := by
  obtain ⟨items, scanned, operand | ⟨isSquare, found, other, -⟩ | ⟨split, same, taken⟩⟩ :=
    shape_ok shaped
  · cases operand.1
  · cases other
  · cases same
    obtain ⟨member, known⟩ := isOf_of_split taken
    refine ⟨known, ?_⟩
    intro op isUnary mark
    obtain ⟨-, read⟩ := scanAt_read scanned s.item member
    generalize s.item = item at mark read
    cases read with
    | bracket closed => cases mark
    | operator read =>
      cases mark
      exact (mem_of_operatorAt read).1

theorem free_of_shape {g : Grammar} {src : Array Char} {lo hi : Nat}
    (shaped : shape g src lo hi = .ok .operand) :
    ∀ c ∈ slice src lo hi, isSpace c = true ∨ g.mark? c = none := by
  obtain ⟨items, scanned, operand | ⟨isSquare, found, other, -⟩ | ⟨split, other, -⟩⟩ :=
    shape_ok shaped
  · intro c member
    obtain ⟨j, least, most, rfl⟩ := mem_slice member
    rw [operand.2] at scanned
    exact free_of_scanAt scanned least most
  · cases other
  · cases other

theorem isGrammatical_operand {offset : Nat} {cs : List Char} {e : Expr}
    (free : ∀ c ∈ cs, isSpace c = true ∨ Grammar.standard.mark? c = none)
    (parsed : operand offset cs = .ok e) : e.IsGrammatical := by
  unfold operand at parsed
  split at parsed
  · cases parsed
  · rename_i filled
    cases parsed
    rw [IsGrammatical, String.toList_ofList]
    exact isPhrase_trimChars filled free

theorem isGrammatical_of_parsePart {src : Array Char} {lo hi : Nat} {e : Expr}
    (parsed : parsePart Grammar.standard src lo hi = .ok e) : e.IsGrammatical := by
  induction size : hi - lo using Nat.strongRecOn generalizing lo hi e with
  | ind count ih =>
    have smaller {a b : Nat} {e : Expr} (parsed : parsePart Grammar.standard src a b = .ok e)
        (less : b - a < hi - lo) : e.IsGrammatical := ih (b - a) (size ▸ less) parsed rfl
    cases shaped : shape Grammar.standard src lo hi with
    | error e' =>
      rw [parsePart, shaped] at parsed
      cases parsed
    | ok s =>
      rw [parsePart, shaped] at parsed
      cases s with
      | operand => exact isGrammatical_operand (free_of_shape shaped) parsed
      | group isSquare item =>
        obtain ⟨least, filled, most⟩ : item.Within lo (lo + (hi - lo)) := shape_within shaped rfl
        obtain ⟨inner, parsed', parsed⟩ := bind_ok parsed
        have within := smaller parsed' (by omega)
        split at parsed
        · cases parsed
          exact within.group
        · obtain ⟨left, parsed'', parsed⟩ := bind_ok parsed
          cases parsed
          refine ⟨?_, smaller parsed'' (by omega), within.group⟩
          split
          · exact .inl (by decide +kernel)
          · exact .inr rfl
      | split s =>
        obtain ⟨known, listed⟩ := spelling_of_shape shaped
        cases s with
        | between op item =>
          obtain ⟨least, filled, most⟩ : item.Within lo (lo + (hi - lo)) := shape_within shaped rfl
          obtain ⟨left, parsed', parsed⟩ := bind_ok parsed
          obtain ⟨right, parsed'', parsed⟩ := bind_ok parsed
          cases parsed
          exact ⟨.inl (binary_of_group op (listed op false known.1) known.2),
            smaller parsed' (by omega), smaller parsed'' (by omega)⟩
        | leading op item =>
          obtain ⟨least, filled, most⟩ : item.Within lo (lo + (hi - lo)) := shape_within shaped rfl
          obtain ⟨right, parsed', parsed⟩ := bind_ok parsed
          have behind := smaller parsed' (by omega)
          cases parsed
          split
          · exact behind
          · rename_i other
            have member := unary_of_group op (listed op true known.1) known.2 (by simpa using other)
            exact ⟨member, behind⟩

end Parser

open WordAsm.Expr.Parser

/-! What is printed. -/

theorem toList_text_unary (op : String) (e : Expr) (g : Bool) :
    (unary op e g).text.toList = '(' :: (op.toList ++ ' ' :: e.text.toList) ++ [')'] := by
  simp [text, String.toList_append]

theorem toList_text_binary (op : String) (l r : Expr) (g : Bool) :
    (binary op l r g).text.toList =
      '(' :: (l.text.toList ++ ' ' :: (op.toList ++ ' ' :: r.text.toList)) ++ [')'] := by
  simp [text, String.toList_append]

theorem reads_text {e : Expr} (grammatical : e.IsGrammatical) (plain : e.hasCall = false) :
    IsClosed e.text.toList ∧ (∀ group, Scans group e.text.toList) ∧ Parses e.text.toList e := by
  induction e with
  | leaf text g =>
    exact ⟨isClosed_phrase grammatical, scans_phrase grammatical, parses_phrase grammatical g⟩
  | number n g => cases grammatical
  | unary op e g ih =>
    obtain ⟨member, operand⟩ := grammatical
    obtain ⟨closed, scans, parses⟩ := ih operand plain
    have inner := isClosed_unary member closed
    rw [toList_text_unary]
    exact ⟨isClosed_group inner, scans_group inner,
      parses_group inner (parses_unary member (scans 0) parses g)⟩
  | binary op l r g ihl ihr =>
    simp only [hasCall, Bool.or_eq_false_iff, beq_eq_false_iff_ne] at plain
    obtain ⟨operator, left, right⟩ := grammatical
    have member := operator.resolve_right plain.1.1
    obtain ⟨closed, scans, parses⟩ := ihl left plain.1.2
    obtain ⟨closed', scans', parses'⟩ := ihr right plain.2
    have inner := isClosed_binary member closed closed'
    rw [toList_text_binary]
    exact ⟨isClosed_group inner, scans_group inner,
      parses_group inner (parses_binary member (scans _) (scans' _) parses parses' g)⟩
  | absent => cases grammatical

theorem text_ungrouped (e : Expr) : e.ungrouped.text = e.text := by
  induction e with
  | leaf | number | absent => rfl
  | unary op e g ih => rw [ungrouped, text, text, ih]
  | binary op l r g ihl ihr => rw [ungrouped, text, text, ihl, ihr]

/-- What is printed of a parsed tree without calls is parsed as that tree, but for the record of
brackets, and is printed as before. -/
theorem printed_trees_parse_back (source : String) (e : Expr)
    (parsed : Expr.parse source = .ok e) (plain : e.hasCall = false) :
    ∃ e', Expr.parse e.text = .ok e' ∧ e'.ungrouped = e.ungrouped ∧ e'.text = e.text := by
  have grammatical : e.IsGrammatical := by
    rw [Expr.parse, parseWith, parseWithin] at parsed
    split at parsed
    · rename_i parsed'
      cases parsed
      exact isGrammatical_of_parsePart parsed'
    · cases parsed
  obtain ⟨e', again, same⟩ := (reads_text grammatical plain).2.2 0 [] [] (by simp) (by simp)
  rw [List.nil_append, List.append_nil] at again
  refine ⟨e', ?_, same, by rw [← text_ungrouped, same, text_ungrouped]⟩
  rw [Expr.parse, parseWith_eq, again]

-- A plus sign that is dropped, a name of two words, and an offset in square brackets.
theorem printed_trees_parse_back_offset :
    ∃ e, Expr.parse "+ a b[-3]" = .ok e ∧ e.hasCall = false ∧ e.text = "(a b + (- 3))" ∧
      ∃ e', Expr.parse e.text = .ok e' ∧ e'.ungrouped = e.ungrouped ∧ e'.text = e.text := by
  let src := "+ a b[-3]".toList.toArray
  have name : parsePart Grammar.standard src 1 5 = .ok (leaf "a b" false) := by
    have shaped : shape Grammar.standard src 1 5 = .ok .operand :=
      ok_of_toOption (by decide +kernel)
    rw [parsePart, shaped]
    exact ok_of_toOption (by decide +kernel)
  have digit : parsePart Grammar.standard src 7 8 = .ok (leaf "3" false) := by
    have shaped : shape Grammar.standard src 7 8 = .ok .operand :=
      ok_of_toOption (by decide +kernel)
    rw [parsePart, shaped]
    exact ok_of_toOption (by decide +kernel)
  have minus : parsePart Grammar.standard src 6 8 = .ok (unary "-" (leaf "3" false) false) := by
    have shaped : shape Grammar.standard src 6 8 =
        .ok (.split (.leading "-" ⟨.operator "-" true, 6, 1, 6⟩)) :=
      ok_of_toOption (by decide +kernel)
    rw [parsePart, shaped]
    simp only [digit]
    rfl
  have offset : parsePart Grammar.standard src 1 9 =
      .ok (binary "+" (leaf "a b" false) (unary "-" (leaf "3" false) true) false) := by
    have shaped : shape Grammar.standard src 1 9 = .ok (.group true ⟨.bracket true, 5, 4, 5⟩) :=
      ok_of_toOption (by decide +kernel)
    have named : isBlankText (slice src 1 5) = false := by decide +kernel
    rw [parsePart, shaped]
    simp only [minus, name, named]
    rfl
  have plus : parsePart Grammar.standard src 0 9 =
      .ok (binary "+" (leaf "a b" false) (unary "-" (leaf "3" false) true) false) := by
    have shaped : shape Grammar.standard src 0 9 =
        .ok (.split (.leading "+" ⟨.operator "+" true, 0, 1, 0⟩)) :=
      ok_of_toOption (by decide +kernel)
    rw [parsePart, shaped]
    simp only [offset]
    rfl
  have parsed : Expr.parse "+ a b[-3]" =
      .ok (binary "+" (leaf "a b" false) (unary "-" (leaf "3" false) true) false) := by
    have length : "+ a b[-3]".length = 9 := rfl
    rw [Expr.parse, parseWith, parseWithin, length, plus]
  exact ⟨_, parsed, rfl, rfl, printed_trees_parse_back "+ a b[-3]" _ parsed rfl⟩

end Expr

end WordAsm
