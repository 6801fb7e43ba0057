import WordAsm.Proofs.PlainTexts

/-!
Scanning of expressions that are written with blanks between operands and operators. An operator
is read as it is written, a group in brackets is one item, and no operand between them holds an
item; each operator is found where it stands.
-/
namespace WordAsm

namespace Precedence

def binaryOperators : List String :=
  standard.flatten.filter fun op => op.toList.head? != some '@'

def looseness (op : String) : Nat := standard.findIdx fun group => group.contains op

end Precedence

namespace Expr.Parser

open Precedence

def reserved : List Char :=
  '(' :: ')' :: '[' :: ']' :: (standard.flatten.flatMap String.toList).filter (· != '@')

theorem reserved_ascii : ∀ c ∈ reserved, c.toNat < 128 := by decide +kernel

theorem bytes_ascii {c : Char} (small : c.toNat < 128) :
    Text.encodeChar c = [UInt8.ofNat c.toNat] := by
  have value : c.val.toNat = c.toNat := rfl
  have plain : Text.isStray c = false := by
    rw [Text.isStray, decide_eq_false_iff_not]
    omega
  rw [Text.encodeChar_plain plain]
  unfold String.utf8EncodeChar
  rw [value, if_pos (by omega)]

theorem bytes_wide {c : Char} (wide : 128 ≤ c.toNat) :
    ∀ b ∈ Text.encodeChar c, 128 ≤ b.toNat := by
  have value : c.val.toNat = c.toNat := rfl
  intro b member
  rw [Text.encodeChar] at member
  split at member
  · rename_i apart
    obtain rfl := List.mem_singleton.1 member
    have below : c.toNat < 0x110000 := by
      rcases c.valid with low | ⟨_, high⟩
      · exact Nat.lt_trans low (by decide)
      · exact high
    simp only [Text.isStray, decide_eq_true_eq] at apart
    rw [UInt8.toNat_ofNat']
    omega
  unfold String.utf8EncodeChar at member
  simp only [value] at member
  split at member
  · omega
  · split at member
    · simp only [List.mem_cons, List.not_mem_nil, or_false] at member
      rcases member with rfl | rfl <;> simp only [UInt8.toNat_ofNat'] <;> omega
    · split at member
      · simp only [List.mem_cons, List.not_mem_nil, or_false] at member
        rcases member with rfl | rfl | rfl <;> simp only [UInt8.toNat_ofNat'] <;> omega
      · simp only [List.mem_cons, List.not_mem_nil, or_false] at member
        rcases member with rfl | rfl | rfl | rfl <;> simp only [UInt8.toNat_ofNat'] <;> omega

theorem mark_unreserved {c : Char} (free : c ∉ reserved) : Grammar.standard.mark? c = none := by
  have unmarked : ∀ b ∈ Text.encodeChar c, Grammar.standard.marks.contains b ≠ true := by
    intro b inside marked
    have listed : b ∈ (reserved.flatMap Text.encodeChar).eraseDups :=
      List.contains_iff_mem.1 marked
    rw [List.mem_eraseDups] at listed
    obtain ⟨d, known, byte⟩ := List.mem_flatMap.1 listed
    have small := reserved_ascii d known
    rw [bytes_ascii small, List.mem_singleton] at byte
    subst byte
    have value : (UInt8.ofNat d.toNat).toNat = d.toNat := by
      rw [UInt8.toNat_ofNat']
      omega
    by_cases wide : 128 ≤ c.toNat
    · have high := bytes_wide wide _ inside
      omega
    · rw [bytes_ascii (by omega), List.mem_singleton] at inside
      have bytes := congrArg UInt8.toNat inside
      rw [value, UInt8.toNat_ofNat'] at bytes
      have same : d = c := by
        apply Char.toNat_inj.1
        omega
      exact free (same ▸ known)
  rw [Grammar.mark?, List.find?_eq_none.2]
  rintro ⟨b, i⟩ member
  exact unmarked b (List.fst_mem_of_mem_zipIdx member)

def foundAll (items : List Item) (later : Found (List Item)) : Found (List Item) :=
  items.foldr found later

theorem foundAll_append (items items' : List Item) (later : Found (List Item)) :
    foundAll (items ++ items') later = foundAll items (foundAll items' later) :=
  List.foldr_append

theorem foundAll_ok (items : List Item) : foundAll items (.ok []) = .ok items := by
  induction items with
  | nil => rfl
  | cons item items ih => rw [foundAll, List.foldr_cons, ← foundAll, ih, found]

theorem scan_spaces {blanks : List Char} (blank : ∀ c ∈ blanks, isSpace c = true)
    (g : Grammar) (start offset : Nat) (after : Bool) (rest : List Char) :
    ∃ offset', scan g start offset 0 after (blanks ++ rest) =
      scan g (start + blanks.length) offset' 0 after rest := by
  induction blanks generalizing start offset with
  | nil => exact ⟨offset, rfl⟩
  | cons c blanks ih =>
    have here : isSpace c = true := blank c (by simp)
    obtain ⟨offset', later⟩ := ih (fun d member => blank d (by simp [member])) (start + 1)
      (offset + (Text.encodeChar c).length)
    refine ⟨offset', ?_⟩
    rw [List.cons_append, scan]
    simp only [here, if_true, later, List.length_cons]
    congr 1
    omega

theorem scan_past (g : Grammar) (start offset : Nat) (after : Bool) (cs rest : List Char) :
    ∃ offset', scan g start offset cs.length after (cs ++ rest) =
      scan g (start + cs.length) offset' 0 after rest := by
  induction cs generalizing start offset with
  | nil => exact ⟨offset, rfl⟩
  | cons c cs ih =>
    obtain ⟨offset', later⟩ := ih (start + 1) (offset + (Text.encodeChar c).length)
    refine ⟨offset', ?_⟩
    rw [List.cons_append, List.length_cons, scan]
    simp only [later]
    congr 1
    omega

/-- A text that holds neither blanks nor what operators and brackets are made of. -/
structure IsOperand (cs : List Char) : Prop where
  filled : cs ≠ []
  solid : ∀ c ∈ cs, Text.isBlank c = false
  free : ∀ c ∈ cs, c ∉ reserved

instance (cs : List Char) : Decidable (IsOperand cs) :=
  decidable_of_iff
    (cs ≠ [] ∧ (∀ c ∈ cs, Text.isBlank c = false) ∧ ∀ c ∈ cs, c ∉ reserved)
    ⟨fun ⟨filled, solid, free⟩ => ⟨filled, solid, free⟩,
      fun ⟨filled, solid, free⟩ => ⟨filled, solid, free⟩⟩

theorem isBlank_of_isSpace {c : Char} (space : isSpace c = true) : Text.isBlank c = true := by
  simp only [isSpace, Bool.or_eq_true, beq_iff_eq] at space
  rcases space with ((rfl | rfl) | rfl) | rfl <;> rfl

/-- A text without blanks at its ends that holds nothing of operators and brackets. -/
structure IsPhrase (cs : List Char) : Prop where
  filled : cs ≠ []
  first : cs.head?.all (!Text.isBlank ·) = true
  last : cs.getLast?.all (!Text.isBlank ·) = true
  free : ∀ c ∈ cs, isSpace c = true ∨ Grammar.standard.mark? c = none

theorem IsOperand.phrase {cs : List Char} (operand : IsOperand cs) : IsPhrase cs where
  filled := operand.filled
  first := by
    cases first : cs.head? with
    | none => rfl
    | some c => simp [operand.solid c (List.mem_of_mem_head? first)]
  last := by
    cases last : cs.getLast? with
    | none => rfl
    | some c => simp [operand.solid c (List.mem_of_getLast? last)]
  free c member := .inr (mark_unreserved (operand.free c member))

theorem scan_phrase {cs : List Char} (phrase : IsPhrase cs) (start offset : Nat) (after : Bool)
    (rest : List Char) :
    ∃ offset', scan Grammar.standard start offset 0 after (cs ++ rest) =
      scan Grammar.standard (start + cs.length) offset' 0 false rest := by
  obtain ⟨filled, first, -, free⟩ := phrase
  cases cs with
  | nil => exact absurd rfl filled
  | cons c cs =>
    have visible : isSpace c = false := by
      rw [Bool.eq_false_iff]
      intro space
      simp [isBlank_of_isSpace space] at first
    exact scan_visible visible free start offset after rest

/-! Operators. A character that no operator holds ends every operator, so that the longest one is
the one that is written. -/

def EndsOperators (d : Char) : Prop := ∀ op ∈ Grammar.standard.spellings, d ∉ op.toList

theorem endsOperators_blank : EndsOperators ' ' := by
  unfold EndsOperators
  decide +kernel

theorem endsOperators_word {d : Char} (word : Macro.isWordChar d = true) : EndsOperators d := by
  have symbols : ∀ op ∈ Grammar.standard.spellings, ∀ c ∈ op.toList,
      Macro.isWordChar c = false := by decide +kernel
  intro op member inside
  rw [symbols op member d inside] at word
  cases word

theorem operator_ended {d : Char} (ends : EndsOperators d) (cs rest : List Char) :
    Grammar.standard.operator? (cs ++ d :: rest) = Grammar.standard.operator? cs := by
  have same : ∀ op ∈ Grammar.standard.spellings,
      (op != "" && op.toList.isPrefixOf (cs ++ d :: rest)) =
        (op != "" && op.toList.isPrefixOf cs) := by
    intro op member
    congr 1
    rw [Bool.eq_iff_iff, List.isPrefixOf_iff_prefix, List.isPrefixOf_iff_prefix]
    constructor
    · intro begins
      by_cases fits : op.toList.length ≤ cs.length
      · exact List.prefix_of_prefix_length_le begins (List.prefix_append cs _) fits
      · have whole : cs ++ [d] <+: cs ++ d :: rest := ⟨rest, by simp⟩
        have longer : cs ++ [d] <+: op.toList := by
          apply List.prefix_of_prefix_length_le whole begins
          rw [List.length_append, List.length_singleton]
          omega
        exact absurd (longer.mem (by simp)) (ends op member)
    · intro begins
      exact begins.trans (List.prefix_append cs _)
  rw [Grammar.operator?, Grammar.operator?, List.filter_congr same]

/-- An operator is written with a character that is marked and is no bracket. -/
structure IsOperator (op : String) : Prop where
  begins : ∃ c cs, op.toList = c :: cs ∧ isSpace c = false ∧ isBracket c = false ∧
    (Grammar.standard.mark? c).isSome = true
  longest : Grammar.standard.operator? op.toList = some op
  unbracketed : ∀ c ∈ op.toList, isBracket c = false

theorem isOperator_of_mem {op : String} (member : op ∈ Grammar.standard.spellings)
    (plain : op.toList.head? ≠ some '@') : IsOperator op := by
  have checked : ∀ op ∈ Grammar.standard.spellings, op.toList.head? ≠ some '@' →
      op.toList.head?.any (fun c => !isSpace c && !isBracket c &&
        (Grammar.standard.mark? c).isSome) = true ∧
      Grammar.standard.operator? op.toList = some op ∧
      op.toList.all (fun c => !isBracket c) = true := by decide +kernel
  obtain ⟨head, longest, unbracketed⟩ := checked op member plain
  refine ⟨?_, longest, by simpa using unbracketed⟩
  cases chars : op.toList with
  | nil => simp [chars] at head
  | cons c cs =>
    simp only [chars, List.head?_cons, Option.any_some, Bool.and_eq_true, Bool.not_eq_true'] at head
    exact ⟨c, cs, rfl, head.1.1, head.1.2, head.2⟩

theorem scan_operator {op : String} (operator : IsOperator op) {d : Char} (ends : EndsOperators d)
    (start offset : Nat) (after : Bool) (rest : List Char) :
    ∃ offset', scan Grammar.standard start offset 0 after (op.toList ++ d :: rest) =
      found ⟨.operator op after, start, op.length, offset⟩
        (scan Grammar.standard (start + op.length) offset' 0 true (d :: rest)) := by
  obtain ⟨c, cs, chars, visible, bracket, marked⟩ := operator.begins
  obtain ⟨⟨i, b⟩, mark⟩ := Option.isSome_iff_exists.1 marked
  have longest : Grammar.standard.operator? (c :: (cs ++ d :: rest)) = some op := by
    rw [← List.cons_append, ← chars, operator_ended ends, operator.longest]
  have length : op.length = cs.length + 1 := by
    rw [← String.length_toList, chars, List.length_cons]
  obtain ⟨offset', later⟩ :=
    scan_past Grammar.standard (start + 1) (offset + (Text.encodeChar c).length) true cs
    (d :: rest)
  have position : start + 1 + cs.length = start + (cs.length + 1) := by omega
  refine ⟨offset', ?_⟩
  simp only [isBracket, Bool.or_eq_false_iff] at bracket
  rw [chars, List.cons_append, scan]
  simp only [visible, mark, bracket.1.1.1, bracket.1.1.2, longest, Bool.or_self,
    Bool.false_eq_true, if_false, length, Nat.add_sub_cancel, later, position]

/-! Groups in brackets. -/

def IsClosed (cs : List Char) : Prop :=
  ∀ depth rest, closing (depth + 1) (cs ++ rest) = (closing (depth + 1) rest).map (· + cs.length)

theorem isClosed_append {cs ds : List Char} (closed : IsClosed cs) (closed' : IsClosed ds) :
    IsClosed (cs ++ ds) := by
  intro depth rest
  rw [List.append_assoc, closed, closed', Option.map_map]
  congr 1
  funext n
  simp only [Function.comp, List.length_append]
  omega

theorem isClosed_unbracketed {cs : List Char} (free : ∀ c ∈ cs, isBracket c = false) :
    IsClosed cs := by
  induction cs with
  | nil =>
    intro depth rest
    simp
  | cons c cs ih =>
    have here := free c (by simp)
    have later := ih fun d member => free d (by simp [member])
    simp only [isBracket, Bool.or_eq_false_iff] at here
    intro depth rest
    rw [List.cons_append, closing]
    simp only [here.1.1.1, here.1.1.2, here.1.2, here.2, Bool.or_self, Bool.false_eq_true, if_false,
      later depth rest, Option.map_map]
    rfl

theorem closing_group {cs : List Char} (closed : IsClosed cs) (depth : Nat) (rest : List Char) :
    closing depth ('(' :: cs ++ ')' :: rest) =
      if depth = 0 then some (cs.length + 2)
      else (closing depth rest).map (· + (cs.length + 2)) := by
  have inner := closed depth (')' :: rest)
  have begins : closing depth ('(' :: cs ++ ')' :: rest) =
      (closing (depth + 1) (cs ++ ')' :: rest)).map (· + 1) := rfl
  have ends : closing (depth + 1) (')' :: rest) =
      if depth = 0 then some 1 else (closing depth rest).map (· + 1) := by
    have bracket : closing (depth + 1) (')' :: rest) =
        if depth + 1 ≤ 1 then some 1 else (closing depth rest).map (· + 1) := rfl
    rw [bracket]
    by_cases last : depth = 0
    · rw [if_pos last, if_pos (by omega)]
    · rw [if_neg last, if_neg (by omega)]
  rw [begins, inner, ends]
  split
  · simp only [Option.map_some, Option.some.injEq]
    omega
  · simp only [Option.map_map]
    congr 1
    funext n
    simp only [Function.comp]
    omega

theorem isClosed_group {cs : List Char} (closed : IsClosed cs) : IsClosed ('(' :: cs ++ [')']) := by
  intro depth rest
  have whole := closing_group closed (depth + 1) rest
  rw [if_neg (Nat.succ_ne_zero depth)] at whole
  simpa using whole

theorem scan_group {cs : List Char} (closed : IsClosed cs) (start offset : Nat) (after : Bool)
    (rest : List Char) :
    ∃ offset', scan Grammar.standard start offset 0 after ('(' :: cs ++ ')' :: rest) =
      found ⟨.bracket false, start, cs.length + 2, offset⟩
        (scan Grammar.standard (start + (cs.length + 2)) offset' 0 false rest) := by
  have mark : Grammar.standard.mark? '(' = some (0, 40) := by decide +kernel
  have whole : closing 0 ('(' :: (cs ++ ')' :: rest)) = some (cs.length + 2) :=
    closing_group closed 0 rest
  obtain ⟨offset', later⟩ := scan_past Grammar.standard (start + 1) (offset + 1) false (cs ++ [')'])
    rest
  rw [List.length_append, List.length_singleton, List.append_assoc] at later
  have position : start + 1 + (cs.length + 1) = start + (cs.length + 2) := by omega
  refine ⟨offset', ?_⟩
  rw [List.cons_append, scan]
  simp only [mark, whole]
  change found _ (scan Grammar.standard (start + 1) (offset + 1) (cs.length + 1) false
    (cs ++ ([')'] ++ rest))) = _
  rw [later, position]
  rfl

end Expr.Parser

end WordAsm
