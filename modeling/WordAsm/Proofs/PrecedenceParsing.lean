import WordAsm.Proofs.ExpressionScan

/-!
The parser and the table of operators. A tree is written with brackets only where the table needs
them: around a left operand that binds more loosely, around a right operand that does not bind more
tightly, and around two operands after a unary operator. Main statement: what is written so is
parsed as that tree.
-/
namespace WordAsm

namespace Expr

open Precedence

def isLoose (group : Nat) : Expr → Bool
  | binary op _ _ _ => group ≤ looseness op
  | _ => false

def bracketed (needed : Bool) (s : String) : String := if needed then "( " ++ s ++ " )" else s

/-- The tree with a blank between tokens and no bracket that could be left out. -/
def written : Expr → String
  | leaf text _ => text
  | number n _ => toString n
  | unary op e _ => op ++ " " ++ bracketed (e.isLoose 0) e.written
  | binary op l r _ =>
    bracketed (l.isLoose (looseness op + 1)) l.written ++ " " ++ op ++ " " ++
      bracketed (r.isLoose (looseness op)) r.written
  | absent => ""

/-- A tree that consists of operands and operators of the table. -/
def IsWritable : Expr → Prop
  | leaf text _ => Parser.IsOperand text.toList
  | unary op e _ => op ∈ ["!", "~", "-"] ∧ e.IsWritable
  | binary op l r _ => op ∈ binaryOperators ∧ l.IsWritable ∧ r.IsWritable
  | number .. | absent => False

instance IsWritable.decidable : (e : Expr) → Decidable e.IsWritable
  | leaf text _ => inferInstanceAs (Decidable (Parser.IsOperand text.toList))
  | unary _ e _ =>
    have := decidable e
    inferInstanceAs (Decidable (_ ∧ _))
  | binary _ l r _ =>
    have := decidable l
    have := decidable r
    inferInstanceAs (Decidable (_ ∧ _ ∧ _))
  | number .. | absent => inferInstanceAs (Decidable False)

/-- The tree without a record of brackets. -/
def ungrouped : Expr → Expr
  | leaf text _ => leaf text false
  | number n _ => number n false
  | unary op e _ => unary op e.ungrouped false
  | binary op l r _ => binary op l.ungrouped r.ungrouped false
  | absent => absent

theorem ungrouped_group (e : Expr) : e.group.ungrouped = e.ungrouped := by
  cases e <;> rfl

namespace Parser

/-! What the table says of its operators. -/

theorem group_binary : ∀ op ∈ binaryOperators,
    Grammar.standard.group? op = some (looseness op) ∧ looseness op < Grammar.standard.groups ∧
      0 < looseness op := by decide +kernel

theorem group_unary : ∀ op ∈ ["!", "~", "-"],
    Grammar.standard.group? ("@" ++ op) = some 0 ∧ (op == "+") = false := by decide +kernel

theorem spelling_binary : ∀ op ∈ binaryOperators,
    op ∈ Grammar.standard.spellings ∧ op.toList.head? ≠ some '@' := by decide +kernel

theorem spelling_unary : ∀ op ∈ ["!", "~", "-"],
    op ∈ Grammar.standard.spellings ∧ op.toList.head? ≠ some '@' := by decide +kernel

theorem isOperator_binary {op : String} (member : op ∈ binaryOperators) : IsOperator op :=
  isOperator_of_mem (spelling_binary op member).1 (spelling_binary op member).2

theorem isOperator_unary {op : String} (member : op ∈ ["!", "~", "-"]) : IsOperator op :=
  isOperator_of_mem (spelling_unary op member).1 (spelling_unary op member).2

theorem group_prefixed {op : String} {k : Nat}
    (known : Grammar.standard.group? ("@" ++ op) = some k) : k = 0 := by
  have marked : ∀ entry ∈ Grammar.standard.entries,
      entry.1.toList.head? = some '@' → entry.2 = 0 := by decide +kernel
  have listed : ("@" ++ op, k) ∈ Grammar.standard.entries := by
    unfold Grammar.group? at known
    rw [List.lookup_eq_some_iff] at known
    obtain ⟨before, after, same, -⟩ := known
    rw [same]
    simp
  apply marked _ listed
  rw [String.toList_append]
  rfl

/-! The split of items. -/

def Item.IsTighter (group : Nat) (item : Item) : Prop :=
  ∀ op k, item.mark = .operator op false → Grammar.standard.group? op = some k → k < group

theorem binaryIn_tighter {group k : Nat} {item : Item} (tighter : item.IsTighter group)
    (least : group ≤ k) : binaryIn Grammar.standard k item = none := by
  unfold binaryIn
  split
  · rename_i op mark
    split
    · rename_i known
      have less := tighter op k mark (by simpa using known)
      omega
    · rfl
  · rfl

theorem findSome_tighter {group k : Nat} {items : List Item}
    (tighter : ∀ item ∈ items, item.IsTighter group) (least : group ≤ k) :
    items.reverse.findSome? (binaryIn Grammar.standard k) = none := by
  rw [List.findSome?_eq_none_iff]
  intro item member
  exact binaryIn_tighter (tighter item (List.mem_reverse.1 member)) least

theorem unaryIn_loose {k : Nat} (item : Item) (positive : 0 < k) :
    unaryIn Grammar.standard k item = none := by
  unfold unaryIn
  split
  · split
    · rename_i known
      have zero := group_prefixed (by simpa using known)
      omega
    · rfl
  · rfl

theorem splitIn_tighter {group k : Nat} {items : List Item}
    (tighter : ∀ item ∈ items, item.IsTighter group) (least : group ≤ k) (positive : 0 < k) :
    splitIn Grammar.standard items k = none := by
  rw [splitIn, findSome_tighter tighter least]
  cases items with
  | nil => rfl
  | cons item items => exact unaryIn_loose item positive

theorem split_of_loosest {items : List Item} {k : Nat} {s : Split}
    (bound : k < Grammar.standard.groups) (here : splitIn Grammar.standard items k = some s)
    (none : ∀ j, k < j → splitIn Grammar.standard items j = none) :
    split? Grammar.standard items = some s := by
  unfold split?
  generalize Grammar.standard.groups = n at bound
  induction n with
  | zero => omega
  | succ n ih =>
    rw [List.range_succ, List.reverse_append, List.reverse_singleton, List.singleton_append,
      List.findSome?_cons]
    by_cases last : k = n
    · subst last
      rw [here]
    · rw [none n (by omega)]
      exact ih (by omega)

theorem split_between {op : String} {item : Item} {before after : List Item}
    (member : op ∈ binaryOperators) (mark : item.mark = .operator op false)
    (left : ∀ other ∈ before, other.IsTighter (looseness op + 1))
    (right : ∀ other ∈ after, other.IsTighter (looseness op)) :
    split? Grammar.standard (before ++ item :: after) = some (.between op item) := by
  obtain ⟨known, bound, positive⟩ := group_binary op member
  have own : item.IsTighter (looseness op + 1) := by
    intro op' k mark' known'
    rw [mark] at mark'
    cases mark'
    rw [known] at known'
    cases known'
    omega
  apply split_of_loosest bound
  · have found : binaryIn Grammar.standard (looseness op) item = some (.between op item) := by
      simp only [binaryIn, mark, known, beq_self_eq_true, if_true]
    rw [splitIn, List.reverse_append, List.reverse_cons, List.append_assoc,
      List.findSome?_append, findSome_tighter right (Nat.le_refl _), Option.none_or,
      List.singleton_append, List.findSome?_cons, found]
  · intro j looser
    refine splitIn_tighter ?_ (Nat.succ_le_of_lt looser) (by omega)
    intro other member
    rcases List.mem_append.1 member with member | member
    · exact left other member
    · rcases List.mem_cons.1 member with rfl | member
      · exact own
      · intro op' k mark' known'
        have less := right other member op' k mark' known'
        omega

theorem split_leading {op : String} {item : Item} {after : List Item}
    (member : op ∈ ["!", "~", "-"]) (mark : item.mark = .operator op true)
    (right : ∀ other ∈ after, other.IsTighter 0) :
    split? Grammar.standard (item :: after) = some (.leading op item) := by
  obtain ⟨known, -⟩ := group_unary op member
  have tighter : ∀ other ∈ item :: after, other.IsTighter 0 := by
    intro other member
    rcases List.mem_cons.1 member with rfl | member
    · intro op' k mark'
      rw [mark] at mark'
      cases mark'
    · exact right other member
  apply split_of_loosest (k := 0) (by decide)
  · rw [splitIn, findSome_tighter tighter (Nat.le_refl 0)]
    simp only [List.head?_cons, Option.bind_some, unaryIn, mark, known, beq_self_eq_true, if_true]
  · intro j positive
    exact splitIn_tighter tighter (Nat.zero_le j) positive

/-! Scanning of what is written. -/

/-- A text in which the operators between operands are in tighter groups, as the scan of a longer
text finds them. -/
def Scans (group : Nat) (cs : List Char) : Prop :=
  ∀ start offset rest, ∃ items offset', (∀ item ∈ items, item.IsTighter group) ∧
    scan Grammar.standard start offset 0 true (cs ++ rest) =
      foundAll items (scan Grammar.standard (start + cs.length) offset' 0 false rest)

theorem Scans.mono {group group' : Nat} {cs : List Char} (scans : Scans group cs)
    (le : group ≤ group') : Scans group' cs := by
  intro start offset rest
  obtain ⟨items, offset', tighter, scanned⟩ := scans start offset rest
  refine ⟨items, offset', ?_, scanned⟩
  intro item member op k mark known
  have less := tighter item member op k mark known
  omega

theorem scan_blank (g : Grammar) (start offset : Nat) (after : Bool) (rest : List Char) :
    ∃ offset', scan g start offset 0 after (' ' :: rest) =
      scan g (start + 1) offset' 0 after rest :=
  scan_spaces (by decide : ∀ c ∈ [' '], isSpace c = true) g start offset after rest

theorem scan_between {group group' : Nat} {cs ds : List Char} {op : String}
    (left : Scans group cs) (operator : IsOperator op) (right : Scans group' ds)
    (start offset : Nat) (rest : List Char) :
    ∃ before place after offset',
      (∀ item ∈ before, item.IsTighter group) ∧ (∀ item ∈ after, item.IsTighter group') ∧
      scan Grammar.standard start offset 0 true
          (cs ++ ' ' :: (op.toList ++ ' ' :: (ds ++ rest))) =
        foundAll (before ++ ⟨.operator op false, start + cs.length + 1, op.length, place⟩ :: after)
          (scan Grammar.standard (start + cs.length + 1 + op.length + 1 + ds.length) offset' 0 false
            rest) := by
  obtain ⟨before, offset₁, tighter, first⟩ :=
    left start offset (' ' :: (op.toList ++ ' ' :: (ds ++ rest)))
  obtain ⟨place, second⟩ := scan_blank Grammar.standard (start + cs.length) offset₁ false
    (op.toList ++ ' ' :: (ds ++ rest))
  obtain ⟨offset₂, third⟩ := scan_operator operator endsOperators_blank
    (start + cs.length + 1) place false (ds ++ rest)
  obtain ⟨offset₃, fourth⟩ := scan_blank Grammar.standard (start + cs.length + 1 + op.length)
    offset₂ true (ds ++ rest)
  obtain ⟨after, offset₄, tighter', fifth⟩ :=
    right (start + cs.length + 1 + op.length + 1) offset₃ rest
  refine ⟨before, place, after, offset₄, tighter, tighter', ?_⟩
  rw [first, second, third, fourth, fifth, foundAll_append]
  rfl

theorem scan_leading {group : Nat} {ds : List Char} {op : String} (operator : IsOperator op)
    (right : Scans group ds) (start offset : Nat) (rest : List Char) :
    ∃ after offset', (∀ item ∈ after, item.IsTighter group) ∧
      scan Grammar.standard start offset 0 true (op.toList ++ ' ' :: (ds ++ rest)) =
        foundAll (⟨.operator op true, start, op.length, offset⟩ :: after)
          (scan Grammar.standard (start + op.length + 1 + ds.length) offset' 0 false rest) := by
  obtain ⟨offset₁, first⟩ := scan_operator operator endsOperators_blank start offset true
    (ds ++ rest)
  obtain ⟨offset₂, second⟩ := scan_blank Grammar.standard (start + op.length) offset₁ true
    (ds ++ rest)
  obtain ⟨after, offset₃, tighter, third⟩ := right (start + op.length + 1) offset₂ rest
  refine ⟨after, offset₃, tighter, ?_⟩
  rw [first, second, third]
  rfl

theorem scans_phrase {cs : List Char} (phrase : IsPhrase cs) (group : Nat) : Scans group cs := by
  intro start offset rest
  obtain ⟨offset', scanned⟩ := scan_phrase phrase start offset true rest
  exact ⟨[], offset', by simp, scanned⟩

theorem scans_group {cs : List Char} (closed : IsClosed cs) (group : Nat) :
    Scans group ('(' :: cs ++ [')']) := by
  intro start offset rest
  obtain ⟨offset', scanned⟩ := scan_group closed start offset true rest
  refine ⟨[⟨.bracket false, start, cs.length + 2, offset⟩], offset', ?_, ?_⟩
  · intro item member op k mark
    rw [List.mem_singleton.1 member] at mark
    cases mark
  · have text : '(' :: cs ++ [')'] ++ rest = '(' :: cs ++ ')' :: rest := by simp
    have length : ('(' :: cs ++ [')']).length = cs.length + 2 := by simp
    rw [text, length, scanned]
    rfl

end Parser

open WordAsm.Expr.Parser

def span : Expr → Nat
  | binary op _ _ _ => looseness op + 1
  | _ => 0

theorem isLoose_iff (group : Nat) (e : Expr) : e.isLoose group = true ↔ group < e.span := by
  cases e with
  | binary op l r g =>
    simp only [isLoose, span, decide_eq_true_eq]
    omega
  | _ => simp [isLoose, span]

theorem toList_bracketed (needed : Bool) (s : String) :
    (bracketed needed s).toList =
      if needed then '(' :: (' ' :: s.toList ++ [' ']) ++ [')'] else s.toList := by
  unfold bracketed
  split
  · simp [String.toList_append]
  · rfl

theorem toList_unary (op : String) (e : Expr) (g : Bool) :
    (unary op e g).written.toList =
      op.toList ++ ' ' :: (bracketed (e.isLoose 0) e.written).toList := by
  simp [written, String.toList_append]

theorem toList_binary (op : String) (l r : Expr) (g : Bool) :
    (binary op l r g).written.toList =
      (bracketed (l.isLoose (looseness op + 1)) l.written).toList ++ ' ' :: (op.toList ++
        ' ' :: (bracketed (r.isLoose (looseness op)) r.written).toList) := by
  simp [written, String.toList_append]

theorem isClosed_blank : IsClosed [' '] := isClosed_unbracketed (by decide)

theorem isClosed_between_blanks {cs : List Char} (closed : IsClosed cs) :
    IsClosed (' ' :: cs ++ [' ']) :=
  isClosed_append (isClosed_append isClosed_blank closed) isClosed_blank

theorem isClosed_bracketed {s : String} (closed : IsClosed s.toList) (needed : Bool) :
    IsClosed (bracketed needed s).toList := by
  rw [toList_bracketed]
  split
  · exact isClosed_group (isClosed_between_blanks closed)
  · exact closed

theorem isBracket_marked {c : Char} (bracket : isBracket c = true) :
    isSpace c = false ∧ Grammar.standard.mark? c ≠ none := by
  simp only [isBracket, Bool.or_eq_true, beq_iff_eq] at bracket
  rcases bracket with ((rfl | rfl) | rfl) | rfl <;> decide +kernel

theorem isClosed_phrase {cs : List Char} (phrase : IsPhrase cs) : IsClosed cs := by
  apply isClosed_unbracketed
  intro c member
  rw [Bool.eq_false_iff]
  intro bracket
  obtain ⟨visible, marked⟩ := isBracket_marked bracket
  rcases phrase.free c member with space | unmarked
  · simp [visible] at space
  · exact marked unmarked

theorem isClosed_unary {op : String} {cs : List Char} (member : op ∈ ["!", "~", "-"])
    (closed : IsClosed cs) : IsClosed (op.toList ++ ' ' :: cs) :=
  isClosed_append (isClosed_unbracketed (isOperator_unary member).unbracketed)
    (isClosed_append isClosed_blank closed)

theorem isClosed_binary {op : String} {cs ds : List Char} (member : op ∈ binaryOperators)
    (closed : IsClosed cs) (closed' : IsClosed ds) :
    IsClosed (cs ++ ' ' :: (op.toList ++ ' ' :: ds)) :=
  isClosed_append closed (isClosed_append isClosed_blank
    (isClosed_append (isClosed_unbracketed (isOperator_binary member).unbracketed)
      (isClosed_append isClosed_blank closed')))

theorem isClosed_written {e : Expr} (writable : e.IsWritable) : IsClosed e.written.toList := by
  induction e with
  | leaf text g => exact isClosed_phrase (IsOperand.phrase writable)
  | number n g => cases writable
  | unary op e g ih =>
    obtain ⟨member, operand⟩ := writable
    rw [toList_unary]
    exact isClosed_unary member (isClosed_bracketed (ih operand) _)
  | binary op l r g ihl ihr =>
    obtain ⟨member, left, right⟩ := writable
    rw [toList_binary]
    exact isClosed_binary member (isClosed_bracketed (ihl left) _)
      (isClosed_bracketed (ihr right) _)
  | absent => cases writable

theorem scans_bracketed {e : Expr} (closed : IsClosed e.written.toList)
    (scans : Scans e.span e.written.toList) (group : Nat) :
    Scans group (bracketed (e.isLoose group) e.written).toList := by
  rw [toList_bracketed]
  split
  · exact scans_group (isClosed_between_blanks closed) group
  · rename_i tight
    apply scans.mono
    rw [isLoose_iff] at tight
    omega

theorem scans_written {e : Expr} (writable : e.IsWritable) : Scans e.span e.written.toList := by
  induction e with
  | leaf text g => exact scans_phrase (IsOperand.phrase writable) 0
  | number n g => cases writable
  | unary op e g ih =>
    obtain ⟨member, operand⟩ := writable
    have right := scans_bracketed (isClosed_written operand) (ih operand) 0
    intro start offset rest
    obtain ⟨after, offset', tighter, scanned⟩ :=
      scan_leading (isOperator_unary member) right start offset rest
    have length : start + (unary op e g).written.toList.length =
        start + op.length + 1 + (bracketed (e.isLoose 0) e.written).toList.length := by
      simp only [toList_unary, List.length_append, List.length_cons, String.length_toList]
      omega
    rw [length, toList_unary, List.append_assoc, List.cons_append]
    refine ⟨_, offset', ?_, scanned⟩
    intro item member
    rcases List.mem_cons.1 member with rfl | member
    · intro op' k mark
      cases mark
    · exact tighter item member
  | binary op l r g ihl ihr =>
    obtain ⟨member, left, right⟩ := writable
    have before := scans_bracketed (isClosed_written left) (ihl left) (looseness op + 1)
    have after := scans_bracketed (isClosed_written right) (ihr right) (looseness op)
    intro start offset rest
    obtain ⟨items, place, items', offset', tighter, tighter', scanned⟩ :=
      scan_between before (isOperator_binary member) after start offset rest
    have length : start + (binary op l r g).written.toList.length =
        start + (bracketed (l.isLoose (looseness op + 1)) l.written).toList.length + 1 +
          op.length + 1 + (bracketed (r.isLoose (looseness op)) r.written).toList.length := by
      simp only [toList_binary, List.length_append, List.length_cons, String.length_toList]
      omega
    rw [length, toList_binary, List.append_assoc, List.cons_append, List.append_assoc,
      List.cons_append]
    refine ⟨_, offset', ?_, scanned⟩
    obtain ⟨known, -, -⟩ := group_binary op member
    intro item listed op' k mark known'
    change k < looseness op + 1
    rcases List.mem_append.1 listed with listed | listed
    · exact tighter item listed op' k mark known'
    · rcases List.mem_cons.1 listed with rfl | listed
      · cases mark
        rw [known] at known'
        cases known'
        omega
      · have less := tighter' item listed op' k mark known'
        omega
  | absent => cases writable

/-! Parsing. Blanks around a text do not matter. -/

/-- A text that is parsed as that tree, but for the record of brackets. -/
def Parses (cs : List Char) (e : Expr) : Prop :=
  ∀ offset lead trail, (∀ c ∈ lead, isSpace c = true) → (∀ c ∈ trail, isSpace c = true) →
    ∃ e', parseAt Grammar.standard offset (lead ++ (cs ++ trail)) = .ok e' ∧
      e'.ungrouped = e.ungrouped

theorem isBlankText_spaces {cs : List Char} (blank : ∀ c ∈ cs, isSpace c = true) :
    isBlankText cs = true := by
  rw [isBlankText, List.all_eq_true]
  intro c member
  exact isBlank_of_isSpace (blank c member)

theorem scan_trailing {trail : List Char} (blank : ∀ c ∈ trail, isSpace c = true)
    (g : Grammar) (start offset : Nat) (after : Bool) :
    scan g start offset 0 after trail = .ok [] := by
  obtain ⟨offset', scanned⟩ := scan_spaces blank g start offset after []
  rw [List.append_nil] at scanned
  rw [scanned]
  rfl

theorem soleBracket_operator {cs : List Char} {op : String} {isUnary : Bool}
    {start width place : Nat} (before after : List Item) :
    soleBracket? cs (before ++ ⟨.operator op isUnary, start, width, place⟩ :: after) = none := by
  cases before with
  | nil => cases after <;> rfl
  | cons item before => cases before <;> rfl

theorem dropWhile_filled {cs : List Char} (filled : cs ≠ [])
    (first : cs.head?.all (!Text.isBlank ·) = true) (rest : List Char) :
    (cs ++ rest).dropWhile Text.isBlank = cs ++ rest := by
  cases cs with
  | nil => exact absurd rfl filled
  | cons c cs =>
    rw [List.cons_append, List.dropWhile_cons_of_neg (by simpa using first)]

theorem trimChars_around {cs lead trail : List Char} (phrase : IsPhrase cs)
    (blank : ∀ c ∈ lead, isSpace c = true) (blank' : ∀ c ∈ trail, isSpace c = true) :
    Text.trimChars (lead ++ (cs ++ trail)) = cs := by
  have dropped : ∀ c ∈ trail.reverse, Text.isBlank c = true := by
    intro c member
    exact isBlank_of_isSpace (blank' c (List.mem_reverse.1 member))
  have last := dropWhile_filled (List.reverse_ne_nil_iff.2 phrase.filled)
    (by rw [List.head?_reverse, phrase.last]) []
  rw [List.append_nil] at last
  rw [Text.trimChars,
    List.dropWhile_append_of_pos fun c member => isBlank_of_isSpace (blank c member),
    dropWhile_filled phrase.filled phrase.first, List.reverse_append,
    List.dropWhile_append_of_pos dropped, last, List.reverse_reverse]

theorem parses_phrase {text : String} (phrase : IsPhrase text.toList) (g : Bool) :
    Parses text.toList (leaf text g) := by
  intro offset lead trail blank blank'
  obtain ⟨offset₁, first⟩ := scan_spaces blank Grammar.standard 0 offset true (text.toList ++ trail)
  obtain ⟨offset₂, second⟩ := scan_phrase phrase (0 + lead.length) offset₁ true trail
  have scanned :
      scan Grammar.standard 0 offset 0 true (lead ++ (text.toList ++ trail)) = .ok [] := by
    rw [first, second, scan_trailing blank']
  refine ⟨leaf text false, ?_, rfl⟩
  rw [parseAt_operand scanned, Parser.operand, trimChars_around phrase blank blank']
  split
  · rename_i empty
    exact absurd empty phrase.filled
  · rw [String.ofList_toList]

theorem Parses.between_blanks {cs : List Char} {e : Expr} (parses : Parses cs e) :
    Parses (' ' :: cs ++ [' ']) e := by
  have blank : ∀ c ∈ [' '], isSpace c = true := by decide
  intro offset lead trail before after
  have text : lead ++ (' ' :: cs ++ [' '] ++ trail) =
      lead ++ [' '] ++ (cs ++ ([' '] ++ trail)) := by simp
  rw [text]
  exact parses offset _ _ (List.forall_mem_append.2 ⟨before, blank⟩)
    (List.forall_mem_append.2 ⟨blank, after⟩)

theorem parses_group {cs : List Char} {e : Expr} (closed : IsClosed cs) (parses : Parses cs e) :
    Parses ('(' :: cs ++ [')']) e := by
  intro offset lead trail blank blank'
  obtain ⟨place, first⟩ := scan_spaces blank Grammar.standard 0 offset true
    ('(' :: cs ++ ')' :: trail)
  obtain ⟨offset', second⟩ := scan_group closed (0 + lead.length) place true trail
  rw [scan_trailing blank'] at second
  have text : lead ++ ('(' :: cs ++ [')'] ++ trail) = lead ++ ('(' :: cs ++ ')' :: trail) := by simp
  have before : (lead ++ ('(' :: cs ++ ')' :: trail)).take (0 + lead.length) = lead :=
    List.take_left' (by omega)
  have behind : (lead ++ ('(' :: cs ++ ')' :: trail)).drop
      (0 + lead.length + (cs.length + 2)) = trail := by
    rw [← text, ← List.append_assoc]
    apply List.drop_left'
    simp
  have inside : ((lead ++ ('(' :: cs ++ ')' :: trail)).drop (0 + lead.length + 1)).take
      (cs.length + 2 - 2) = cs := by
    rw [← List.drop_drop, List.drop_left' (by omega)]
    exact List.take_left' rfl
  have sole : soleBracket? (lead ++ ('(' :: cs ++ ')' :: trail))
      [⟨.bracket false, 0 + lead.length, cs.length + 2, place⟩] =
        some (false, ⟨.bracket false, 0 + lead.length, cs.length + 2, place⟩) := by
    simp only [soleBracket?, behind, isBlankText_spaces blank', if_true]
  obtain ⟨e', parsed, same⟩ := parses (place + 1) [] [] (by simp) (by simp)
  rw [List.nil_append, List.append_nil] at parsed
  refine ⟨e'.group, ?_, by rw [ungrouped_group, same]⟩
  rw [text]
  refine parseAt_bracket (first.trans second) sole ?_ ?_
  · rw [before]
    exact isBlankText_spaces blank
  · rw [inside]
    exact parsed

theorem parses_bracketed {s : String} {e : Expr} (closed : IsClosed s.toList)
    (parses : Parses s.toList e) (needed : Bool) : Parses (bracketed needed s).toList e := by
  rw [toList_bracketed]
  split
  · exact parses_group (isClosed_between_blanks closed) parses.between_blanks
  · exact parses

theorem parses_unary {op : String} {cs : List Char} {e : Expr} (member : op ∈ ["!", "~", "-"])
    (scans : Scans 0 cs) (parses : Parses cs e) (g : Bool) :
    Parses (op.toList ++ ' ' :: cs) (unary op e g) := by
  intro offset lead trail blank blank'
  have text : lead ++ (op.toList ++ ' ' :: cs ++ trail) =
      lead ++ (op.toList ++ ' ' :: (cs ++ trail)) := by simp
  obtain ⟨place, first⟩ := scan_spaces blank Grammar.standard 0 offset true
    (op.toList ++ ' ' :: (cs ++ trail))
  obtain ⟨after, offset', tighter, second⟩ :=
    scan_leading (isOperator_unary member) scans (0 + lead.length) place trail
  rw [scan_trailing blank', foundAll_ok] at second
  have behind : (lead ++ (op.toList ++ ' ' :: (cs ++ trail))).drop (0 + lead.length + op.length) =
      [' '] ++ (cs ++ trail) := by
    rw [← List.append_assoc]
    apply List.drop_left'
    simp [String.length_toList]
  obtain ⟨e', parsed, same⟩ := parses (place + Text.size op) [' '] trail (by decide) blank'
  refine ⟨unary op e' false, ?_, by rw [ungrouped, ungrouped, same]⟩
  rw [text]
  refine parseAt_leading (first.trans second) (soleBracket_operator [] after)
    (split_leading member rfl tighter) (group_unary op member).2 ?_
  rw [behind]
  exact parsed

theorem parses_binary {op : String} {cs ds : List Char} {l r : Expr} (member : op ∈ binaryOperators)
    (scansLeft : Scans (looseness op + 1) cs) (scansRight : Scans (looseness op) ds)
    (left : Parses cs l) (right : Parses ds r) (g : Bool) :
    Parses (cs ++ ' ' :: (op.toList ++ ' ' :: ds)) (binary op l r g) := by
  intro offset lead trail blank blank'
  have text : lead ++ (cs ++ ' ' :: (op.toList ++ ' ' :: ds) ++ trail) =
      lead ++ (cs ++ ' ' :: (op.toList ++ ' ' :: (ds ++ trail))) := by simp
  obtain ⟨offset₁, first⟩ := scan_spaces blank Grammar.standard 0 offset true
    (cs ++ ' ' :: (op.toList ++ ' ' :: (ds ++ trail)))
  obtain ⟨before, place, after, offset₂, tighter, tighter', second⟩ := scan_between scansLeft
    (isOperator_binary member) scansRight (0 + lead.length) offset₁ trail
  rw [scan_trailing blank', foundAll_ok] at second
  have ahead : (lead ++ (cs ++ ' ' :: (op.toList ++ ' ' :: (ds ++ trail)))).take
      (0 + lead.length + cs.length + 1) = lead ++ (cs ++ [' ']) := by
    have parts : lead ++ (cs ++ ' ' :: (op.toList ++ ' ' :: (ds ++ trail))) =
        lead ++ (cs ++ [' ']) ++ (op.toList ++ ' ' :: (ds ++ trail)) := by simp
    rw [parts]
    apply List.take_left'
    simp
    omega
  have behind : (lead ++ (cs ++ ' ' :: (op.toList ++ ' ' :: (ds ++ trail)))).drop
      (0 + lead.length + cs.length + 1 + op.length) = [' '] ++ (ds ++ trail) := by
    have parts : lead ++ (cs ++ ' ' :: (op.toList ++ ' ' :: (ds ++ trail))) =
        lead ++ (cs ++ ' ' :: op.toList) ++ ' ' :: (ds ++ trail) := by simp
    rw [parts]
    apply List.drop_left'
    simp [String.length_toList]
    omega
  obtain ⟨l', parsed, same⟩ := left offset lead [' '] blank (by decide)
  obtain ⟨r', parsed', same'⟩ := right (place + Text.size op) [' '] trail (by decide) blank'
  refine ⟨binary op l' r' false, ?_, by rw [ungrouped, ungrouped, same, same']⟩
  rw [text]
  refine parseAt_between (first.trans second) (soleBracket_operator before after)
    (split_between member rfl tighter tighter') ?_ ?_
  · rw [ahead]
    exact parsed
  · rw [behind]
    exact parsed'

theorem parses_written {e : Expr} (writable : e.IsWritable) : Parses e.written.toList e := by
  induction e with
  | leaf text g => exact parses_phrase (IsOperand.phrase writable) g
  | number n g => cases writable
  | unary op e g ih =>
    obtain ⟨member, operand⟩ := writable
    have closed := isClosed_written operand
    rw [toList_unary]
    exact parses_unary member (scans_bracketed closed (scans_written operand) 0)
      (parses_bracketed closed (ih operand) _) g
  | binary op l r g ihl ihr =>
    obtain ⟨member, left, right⟩ := writable
    have closed := isClosed_written left
    have closed' := isClosed_written right
    rw [toList_binary]
    exact parses_binary member (scans_bracketed closed (scans_written left) _)
      (scans_bracketed closed' (scans_written right) _)
      (parses_bracketed closed (ihl left) _) (parses_bracketed closed' (ihr right) _) g
  | absent => cases writable

/-- The parser inverts the writing of trees. -/
theorem parse_written (e : Expr) (writable : e.IsWritable) :
    ∃ e', Expr.parse e.written = .ok e' ∧ e'.ungrouped = e.ungrouped := by
  obtain ⟨e', parsed, same⟩ := parses_written writable 0 [] [] (by simp) (by simp)
  rw [List.nil_append, List.append_nil] at parsed
  refine ⟨e', ?_, same⟩
  rw [Expr.parse, parseWith_eq, parsed]

def assignment : Expr :=
  let sum := binary "+" (leaf "a" false) (leaf "b" false) false
  let product := binary "*" (unary "-" sum false)
    (unary "~" (unary "!" (leaf "c" false) false) false) false
  let difference := binary "-" (leaf "d" false) (leaf "e" false) false
  binary "+=" (leaf "x" false) (binary "-" product difference false) false

theorem parse_written_assignment :
    assignment.IsWritable ∧ assignment.written = "x += - ( a + b ) * ~ ! c - ( d - e )" ∧
      ∃ e', Expr.parse assignment.written = .ok e' ∧ e'.ungrouped = assignment.ungrouped :=
  ⟨by decide +kernel, by decide +kernel, parse_written assignment (by decide +kernel)⟩

end Expr

end WordAsm
