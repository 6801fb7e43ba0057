import WordAsm.Expr.Basic
import WordAsm.Expr.Precedence
import WordAsm.Text.Basic

/-!
The expression parser. A text is scanned for its operators and bracket groups, split at the
rightmost operator of the loosest group, and its parts are parsed in the same way. A part is given
by two positions of the whole text, which count characters; the offsets of errors count bytes, also
from the start of the whole text.
-/
namespace WordAsm

inductive Flaw where
  | unknownOperator (mark : Char)
  | unclosedBracket
  | missingOperand
  | malformed
  deriving DecidableEq, Repr

def Flaw.message : Flaw → String
  | unknownOperator mark => "unknown operator " ++ Text.quote (String.ofList [mark])
  | unclosedBracket => "unclosed bracket"
  | missingOperand => "missing operand"
  | malformed => "malformed expression"

structure ParseError where
  source : String
  offset : Nat
  flaw : Flaw
  deriving DecidableEq, Repr

def ParseError.message (e : ParseError) : String :=
  e.flaw.message ++ " at character " ++ toString e.offset ++ " of " ++ Text.quote e.source

namespace Expr.Parser

abbrev Found := Except (Nat × Flaw)

inductive Mark where
  | operator (op : String) (isUnary : Bool)
  | bracket (isSquare : Bool)
  deriving DecidableEq, Repr

def Mark.isOperator : Mark → Bool
  | operator .. => true
  | bracket _ => false

/-- An operator or a bracket group: `width` characters from position `start` of the whole
expression, `offset` bytes into it. -/
structure Item where
  mark : Mark
  start : Nat
  width : Nat
  offset : Nat
  deriving DecidableEq, Repr

def isSpace (c : Char) : Bool := c == ' ' || c == '\t' || c == '\n' || c == '\r'

def charAt (src : Array Char) (i : Nat) : Char := src.getD i ' '

def slice (src : Array Char) (lo hi : Nat) : List Char := (src.extract lo hi).toList

def byteOffset (src : Array Char) (i : Nat) : Nat := Text.size (String.ofList (slice src 0 i))

/-- The number of characters up to the bracket that closes the last of `depth` open ones, among the
`left` characters from a position on. -/
def closingAt (src : Array Char) (depth i : Nat) : Nat → Option Nat
  | 0 => none
  | left + 1 =>
    let c := charAt src i
    if c == '(' || c == '[' then (closingAt src (depth + 1) (i + 1) left).map (· + 1)
    else if c == ')' || c == ']' then
      if depth ≤ 1 then some 1 else (closingAt src (depth - 1) (i + 1) left).map (· + 1)
    else (closingAt src depth (i + 1) left).map (· + 1)

def startsAt (src : Array Char) (i : Nat) : Nat → List Char → Bool
  | _, [] => true
  | 0, _ :: _ => false
  | left + 1, c :: cs => c == charAt src i && startsAt src (i + 1) left cs
termination_by structural _ cs => cs

def operatorAt? (g : Grammar) (src : Array Char) (i left : Nat) : Option String :=
  (g.spellings.filter fun op => op != "" && startsAt src i left op.toList).foldl Grammar.longer none

def found (item : Item) : Found (List Item) → Found (List Item)
  | .ok items => .ok (item :: items)
  | .error e => .error e

/-- The operators and bracket groups outside of any bracket, among the `left` characters from
position `i` on, which is `offset` bytes into the whole. The first `skip` characters belong to the
item before them. An operator is unary where an operand is missing before it. -/
def scanAt (g : Grammar) (src : Array Char) (i offset skip : Nat) (afterOperator : Bool) :
    Nat → Found (List Item)
  | 0 => .ok []
  | left + 1 =>
    let c := charAt src i
    let go := fun skip after =>
      scanAt g src (i + 1) (offset + (Text.encodeChar c).length) skip after left
    match skip with
    | k + 1 => go k afterOperator
    | 0 =>
      if isSpace c then go 0 afterOperator
      else
        match g.mark? c with
        | none => go 0 false
        | some (n, b) =>
          if c == '(' || c == '[' then
            match closingAt src 0 i (left + 1) with
            | none => .error (offset, .unclosedBracket)
            | some width => found ⟨.bracket (c == '['), i, width, offset⟩ (go (width - 1) false)
          else
            match operatorAt? g src i (left + 1) with
            | some op =>
              found ⟨.operator op afterOperator, i, op.length, offset⟩ (go (op.length - 1) true)
            | none => .error (offset + n, .unknownOperator (Char.ofNat b.toNat))

inductive Split where
  | between (op : String) (item : Item)
  | leading (op : String) (item : Item)
  deriving DecidableEq, Repr

def Split.item : Split → Item
  | between _ item | leading _ item => item

def binaryIn (g : Grammar) (group : Nat) (item : Item) : Option Split :=
  match item.mark with
  | .operator op false => if g.group? op == some group then some (.between op item) else none
  | _ => none

def unaryIn (g : Grammar) (group : Nat) (item : Item) : Option Split :=
  match item.mark with
  | .operator op true =>
    if g.group? ("@" ++ op) == some group then some (.leading op item) else none
  | _ => none

def splitIn (g : Grammar) (items : List Item) (group : Nat) : Option Split :=
  match items.reverse.findSome? (binaryIn g group) with
  | some split => some split
  | none => items.head?.bind (unaryIn g group)

def split? (g : Grammar) (items : List Item) : Option Split :=
  (List.range g.groups).reverse.findSome? (splitIn g items)

def isBlankText (cs : List Char) : Bool := cs.all Text.isBlank

def soleGroup? (src : Array Char) (hi : Nat) : List Item → Option (Bool × Item)
  | [item] =>
    match item.mark with
    | .bracket isSquare =>
      if isBlankText (slice src (item.start + item.width) hi) then some (isSquare, item) else none
    | _ => none
  | _ => none

def culprit (first : Item) (rest : List Item) : Nat :=
  match (first :: rest).find? (·.mark.isOperator) with
  | some item => item.offset
  | none => first.offset

inductive Shape where
  /-- No operators and no brackets. -/
  | operand
  /-- A bracket group at its end, and no other item. -/
  | group (isSquare : Bool) (item : Item)
  | split (s : Split)
  deriving DecidableEq, Repr

def shape (g : Grammar) (src : Array Char) (lo hi : Nat) : Found Shape :=
  match scanAt g src lo (byteOffset src lo) 0 true (hi - lo) with
  | .error e => .error e
  | .ok [] => .ok .operand
  | .ok (first :: rest) =>
    match soleGroup? src hi (first :: rest) with
    | some (isSquare, item) => .ok (.group isSquare item)
    | none =>
      match split? g (first :: rest) with
      | some s => .ok (.split s)
      | none => .error (culprit first rest, .malformed)

def Item.Within (lo hi : Nat) (item : Item) : Prop :=
  lo ≤ item.start ∧ 0 < item.width ∧ item.start + item.width ≤ hi

theorem closingAt_bound {src : Array Char} {depth i left width : Nat}
    (closed : closingAt src depth i left = some width) : 0 < width ∧ width ≤ left := by
  induction left generalizing depth i width with
  | zero => cases closed
  | succ left ih =>
    have later {deeper : Nat} {width : Nat}
        (closed : (closingAt src deeper (i + 1) left).map (· + 1) = some width) :
        0 < width ∧ width ≤ left + 1 := by
      obtain ⟨w, inner, rfl⟩ := Option.map_eq_some_iff.1 closed
      have := ih inner
      omega
    simp only [closingAt] at closed
    split at closed
    · exact later closed
    · split at closed
      · split at closed
        · obtain rfl : 1 = width := by simpa using closed
          omega
        · exact later closed
      · exact later closed

theorem startsAt_bound {src : Array Char} {i left : Nat} {cs : List Char}
    (starts : startsAt src i left cs = true) : cs.length ≤ left := by
  induction cs generalizing i left with
  | nil => exact Nat.zero_le left
  | cons c cs ih =>
    cases left with
    | zero => cases starts
    | succ left =>
      have := ih (Bool.and_eq_true_iff.1 starts).2
      rw [List.length_cons]
      omega

theorem longer_eq {best : Option String} {op found : String}
    (chosen : Grammar.longer best op = some found) : best = some found ∨ op = found := by
  unfold Grammar.longer at chosen
  split at chosen
  · split at chosen
    · exact .inr (by simpa using chosen)
    · exact .inl chosen
  · exact .inr (by simpa using chosen)

theorem mem_of_foldl_longer {ops : List String} {best : Option String} {op : String}
    (chosen : ops.foldl Grammar.longer best = some op) : best = some op ∨ op ∈ ops := by
  induction ops generalizing best with
  | nil => exact .inl chosen
  | cons next rest ih =>
    rcases ih chosen with h | h
    · rcases longer_eq h with h | h
      · exact .inl h
      · exact .inr (by simp [h])
    · exact .inr (by simp [h])

theorem mem_of_operatorAt {g : Grammar} {src : Array Char} {i left : Nat} {op : String}
    (read : operatorAt? g src i left = some op) :
    op ∈ g.spellings ∧ op ≠ "" ∧ startsAt src i left op.toList = true := by
  simpa [List.mem_filter] using mem_of_foldl_longer read

theorem operatorAt_bound {g : Grammar} {src : Array Char} {i left : Nat} {op : String}
    (read : operatorAt? g src i left = some op) : 0 < op.length ∧ op.length ≤ left := by
  obtain ⟨-, named, starts⟩ := mem_of_operatorAt read
  have fits := startsAt_bound starts
  rw [String.length_toList] at fits
  have filled : op.length ≠ 0 := by simpa using named
  omega

theorem found_ok {item : Item} {later : Found (List Item)} {items : List Item}
    (ok : found item later = .ok items) : ∃ rest, later = .ok rest ∧ items = item :: rest := by
  cases later with
  | error e => simp [found] at ok
  | ok rest => exact ⟨rest, rfl, by simpa [found, eq_comm] using ok⟩

/-- An item as it is read from its start, within the text before `hi`. -/
inductive Item.IsRead (g : Grammar) (src : Array Char) (hi : Nat) : Item → Prop
  | bracket {isSquare : Bool} {i width offset : Nat}
      (closed : closingAt src 0 i (hi - i) = some width) :
      IsRead g src hi ⟨.bracket isSquare, i, width, offset⟩
  | operator {op : String} {isUnary : Bool} {i offset : Nat}
      (read : operatorAt? g src i (hi - i) = some op) :
      IsRead g src hi ⟨.operator op isUnary, i, op.length, offset⟩

theorem scanAt_read {g : Grammar} {src : Array Char} {i offset skip left : Nat}
    {afterOperator : Bool} {items : List Item}
    (scanned : scanAt g src i offset skip afterOperator left = .ok items) :
    ∀ item ∈ items, i ≤ item.start ∧ item.IsRead g src (i + left) := by
  induction left generalizing i offset skip afterOperator items with
  | zero =>
    obtain rfl : [] = items := by simpa [scanAt] using scanned
    simp
  | succ left ih =>
    have later {offset skip : Nat} {after : Bool} {items : List Item}
        (scanned : scanAt g src (i + 1) offset skip after left = .ok items) :
        ∀ item ∈ items, i ≤ item.start ∧ item.IsRead g src (i + (left + 1)) := by
      intro item member
      obtain ⟨least, read⟩ := ih scanned item member
      rw [Nat.add_right_comm i 1 left] at read
      exact ⟨by omega, read⟩
    have count : i + (left + 1) - i = left + 1 := by omega
    simp only [scanAt] at scanned
    split at scanned
    · exact later scanned
    · split at scanned
      · exact later scanned
      · split at scanned
        · exact later scanned
        · split at scanned
          · split at scanned
            · simp at scanned
            · rename_i closed
              obtain ⟨rest, ok, rfl⟩ := found_ok scanned
              exact List.forall_mem_cons.2
                ⟨⟨Nat.le_refl i, .bracket (by rw [count, closed])⟩, later ok⟩
          · split at scanned
            · rename_i read
              obtain ⟨rest, ok, rfl⟩ := found_ok scanned
              exact List.forall_mem_cons.2
                ⟨⟨Nat.le_refl i, .operator (by rw [count, read])⟩, later ok⟩
            · simp at scanned

theorem scanAt_within {g : Grammar} {src : Array Char} {i offset skip left : Nat}
    {afterOperator : Bool} {items : List Item}
    (scanned : scanAt g src i offset skip afterOperator left = .ok items) :
    ∀ item ∈ items, item.Within i (i + left) := by
  intro item member
  obtain ⟨least, read⟩ := scanAt_read scanned item member
  cases read with
  | bracket closed =>
    have bound := closingAt_bound closed
    exact ⟨least, bound.1, by simp only; omega⟩
  | operator read =>
    have bound := operatorAt_bound read
    exact ⟨least, bound.1, by simp only; omega⟩

def Split.IsOf (g : Grammar) : Split → Prop
  | between op item => item.mark = .operator op false ∧ (g.group? op).isSome = true
  | leading op item => item.mark = .operator op true ∧ (g.group? ("@" ++ op)).isSome = true

theorem isOf_of_binaryIn {g : Grammar} {group : Nat} {item : Item} {s : Split}
    (taken : binaryIn g group item = some s) : s.item = item ∧ s.IsOf g := by
  unfold binaryIn at taken
  split at taken
  · rename_i op mark
    split at taken
    · rename_i known
      obtain rfl : Split.between op item = s := by simpa using taken
      exact ⟨rfl, mark, by simp [beq_iff_eq.1 known]⟩
    · simp at taken
  · simp at taken

theorem isOf_of_unaryIn {g : Grammar} {group : Nat} {item : Item} {s : Split}
    (taken : unaryIn g group item = some s) : s.item = item ∧ s.IsOf g := by
  unfold unaryIn at taken
  split at taken
  · rename_i op mark
    split at taken
    · rename_i known
      obtain rfl : Split.leading op item = s := by simpa using taken
      exact ⟨rfl, mark, by simp [beq_iff_eq.1 known]⟩
    · simp at taken
  · simp at taken

theorem isOf_of_split {g : Grammar} {items : List Item} {s : Split}
    (taken : split? g items = some s) : s.item ∈ items ∧ s.IsOf g := by
  obtain ⟨group, _, taken⟩ := List.exists_of_findSome?_eq_some taken
  unfold splitIn at taken
  split at taken
  · rename_i inner rightmost
    obtain rfl : inner = s := by simpa using taken
    obtain ⟨item, member, taken⟩ := List.exists_of_findSome?_eq_some rightmost
    obtain ⟨rfl, known⟩ := isOf_of_binaryIn taken
    exact ⟨List.mem_reverse.1 member, known⟩
  · obtain ⟨item, first, taken⟩ := Option.bind_eq_some_iff.1 taken
    obtain ⟨rfl, known⟩ := isOf_of_unaryIn taken
    exact ⟨List.mem_of_mem_head? first, known⟩

theorem mem_of_soleGroup {src : Array Char} {hi : Nat} {items : List Item} {isSquare : Bool}
    {item : Item} (sole : soleGroup? src hi items = some (isSquare, item)) : item ∈ items := by
  unfold soleGroup? at sole
  split at sole
  · split at sole
    · split at sole
      · simp_all
      · simp at sole
    · simp at sole
  · simp at sole

theorem shape_ok {g : Grammar} {src : Array Char} {lo hi : Nat} {s : Shape}
    (shaped : shape g src lo hi = .ok s) :
    ∃ items, scanAt g src lo (byteOffset src lo) 0 true (hi - lo) = .ok items ∧
      (s = .operand ∧ items = [] ∨
        (∃ isSquare item, s = .group isSquare item ∧
          soleGroup? src hi items = some (isSquare, item)) ∨
        ∃ split, s = .split split ∧ split? g items = some split) := by
  unfold shape at shaped
  split at shaped
  · simp at shaped
  · rename_i scanned
    exact ⟨[], scanned, .inl ⟨by simpa using shaped.symm, rfl⟩⟩
  · rename_i first rest scanned
    refine ⟨first :: rest, scanned, .inr ?_⟩
    split at shaped
    · rename_i isSquare item sole
      exact .inl ⟨isSquare, item, by simpa using shaped.symm, sole⟩
    · split at shaped
      · rename_i split taken
        exact .inr ⟨split, by simpa using shaped.symm, taken⟩
      · simp at shaped

def Shape.item? : Shape → Option Item
  | operand => none
  | group _ item => some item
  | split s => some s.item

theorem shape_within {g : Grammar} {src : Array Char} {lo hi : Nat} {s : Shape} {item : Item}
    (shaped : shape g src lo hi = .ok s) (chosen : s.item? = some item) :
    item.Within lo (lo + (hi - lo)) := by
  obtain ⟨items, scanned, operand | ⟨isSquare, found, rfl, sole⟩ | ⟨split, rfl, taken⟩⟩ :=
    shape_ok shaped
  · simp [operand.1, Shape.item?] at chosen
  · obtain rfl : found = item := by simpa [Shape.item?] using chosen
    exact scanAt_within scanned found (mem_of_soleGroup sole)
  · obtain rfl : split.item = item := by simpa [Shape.item?] using chosen
    exact scanAt_within scanned split.item (isOf_of_split taken).1

/-- A text without operators and brackets. -/
def operand (offset : Nat) (cs : List Char) : Found Expr :=
  match Text.trimChars cs with
  | [] => .error (offset, .missingOperand)
  | text => .ok (leaf (String.ofList text) false)

def parsePart (g : Grammar) (src : Array Char) (lo hi : Nat) : Found Expr :=
  match _shaped : shape g src lo hi with
  | .error e => .error e
  | .ok .operand => operand (byteOffset src lo) (slice src lo hi)
  | .ok (.group isSquare item) => do
    let inner ← parsePart g src (item.start + 1) (item.start + item.width - 1)
    if isBlankText (slice src lo item.start) then return inner.group
    let left ← parsePart g src lo item.start
    return binary (if isSquare then "+" else callOp) left inner.group false
  | .ok (.split (.between op item)) => do
    let left ← parsePart g src lo item.start
    let right ← parsePart g src (item.start + item.width) hi
    return binary op left right false
  | .ok (.split (.leading op item)) => do
    let right ← parsePart g src (item.start + item.width) hi
    return if op == "+" then right else unary op right false
termination_by hi - lo
decreasing_by
  all_goals
    have within := shape_within _shaped rfl
    simp only [Item.Within, Split.item] at within
    omega

end Expr.Parser

def Expr.parseWithin (g : Grammar) (source : String) (lo hi : Nat) : Except ParseError Expr :=
  match Parser.parsePart g source.toList.toArray lo hi with
  | .ok e => .ok e
  | .error (offset, flaw) => .error ⟨source, offset, flaw⟩

def Expr.parseWith (g : Grammar) (source : String) : Except ParseError Expr :=
  parseWithin g source 0 source.length

/-- Parses a complete expression by the standard operators. -/
def Expr.parse (source : String) : Except ParseError Expr := parseWith Grammar.standard source

end WordAsm
