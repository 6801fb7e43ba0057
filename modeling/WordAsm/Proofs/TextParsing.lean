import WordAsm.Proofs.PartParsing

/-!
A text parsed by itself, read as a list of characters: what is looked for from a position on is
found in the rest of the list.
-/
namespace WordAsm

namespace Expr.Parser

/-- The number of characters up to the bracket that closes the last of `depth` open ones. -/
def closing (depth : Nat) : List Char → Option Nat
  | [] => none
  | c :: rest =>
    if c == '(' || c == '[' then (closing (depth + 1) rest).map (· + 1)
    else if c == ')' || c == ']' then
      if depth ≤ 1 then some 1 else (closing (depth - 1) rest).map (· + 1)
    else (closing depth rest).map (· + 1)

/-- The operators and bracket groups of a text outside of any bracket, from its `start`-th
character on, which is `offset` bytes into the whole. The first `skip` characters belong to the
item before them. -/
def scan (g : Grammar) (start offset skip : Nat) (afterOperator : Bool) :
    List Char → Found (List Item)
  | [] => .ok []
  | c :: rest =>
    let go := fun skip after =>
      scan g (start + 1) (offset + (Text.encodeChar c).length) skip after rest
    match skip with
    | k + 1 => go k afterOperator
    | 0 =>
      if isSpace c then go 0 afterOperator
      else
        match g.mark? c with
        | none => go 0 false
        | some (i, b) =>
          if c == '(' || c == '[' then
            match closing 0 (c :: rest) with
            | none => .error (offset, .unclosedBracket)
            | some width => found ⟨.bracket (c == '['), start, width, offset⟩ (go (width - 1) false)
          else
            match g.operator? (c :: rest) with
            | some op =>
              found ⟨.operator op afterOperator, start, op.length, offset⟩ (go (op.length - 1) true)
            | none => .error (offset + i, .unknownOperator (Char.ofNat b.toNat))

def soleBracket? (cs : List Char) : List Item → Option (Bool × Item)
  | [item] =>
    match item.mark with
    | .bracket isSquare =>
      if isBlankText (cs.drop (item.start + item.width)) then some (isSquare, item) else none
    | _ => none
  | _ => none

section

variable (before : List Char)

theorem charAt_toArray (c : Char) (rest : List Char) :
    charAt (before ++ c :: rest).toArray before.length = c := by
  simp [charAt]

theorem closingAt_toArray (depth : Nat) (cs : List Char) :
    closingAt (before ++ cs).toArray depth before.length cs.length = closing depth cs := by
  induction cs generalizing before depth with
  | nil => rfl
  | cons c rest ih =>
    have later (depth : Nat) :
        closingAt (before ++ c :: rest).toArray depth (before.length + 1) rest.length =
          closing depth rest := by
      simpa using ih (before ++ [c]) depth
    simp only [List.length_cons, closingAt, charAt_toArray, later, closing]

theorem startsAt_toArray (cs ds : List Char) :
    startsAt (before ++ cs).toArray before.length cs.length ds = ds.isPrefixOf cs := by
  induction cs generalizing before ds with
  | nil => cases ds <;> rfl
  | cons c rest ih =>
    cases ds with
    | nil => rfl
    | cons d ds =>
      have later : startsAt (before ++ c :: rest).toArray (before.length + 1) rest.length ds =
          ds.isPrefixOf rest := by simpa using ih (before ++ [c]) ds
      simp only [List.length_cons, startsAt, charAt_toArray, later, List.isPrefixOf]

theorem operatorAt_toArray (g : Grammar) (cs : List Char) :
    operatorAt? g (before ++ cs).toArray before.length cs.length = g.operator? cs := by
  simp only [operatorAt?, startsAt_toArray, Grammar.operator?]

theorem scanAt_toArray (g : Grammar) (offset skip : Nat) (after : Bool) (cs : List Char) :
    scanAt g (before ++ cs).toArray before.length offset skip after cs.length =
      scan g before.length offset skip after cs := by
  induction cs generalizing before offset skip after with
  | nil => rfl
  | cons c rest ih =>
    have later (offset skip : Nat) (after : Bool) :
        scanAt g (before ++ c :: rest).toArray (before.length + 1) offset skip after rest.length =
          scan g (before.length + 1) offset skip after rest := by
      simpa using ih (before ++ [c]) offset skip after
    have closed := closingAt_toArray before 0 (c :: rest)
    have read := operatorAt_toArray before g (c :: rest)
    rw [List.length_cons] at closed read ⊢
    generalize scanned : scanAt g (before ++ c :: rest).toArray before.length offset skip after
      (rest.length + 1) = items
    simp only [scanAt, charAt_toArray, later, closed, read] at scanned
    exact scanned.symm

end

theorem scan_free {g : Grammar} {cs : List Char}
    (free : ∀ c ∈ cs, isSpace c = true ∨ g.mark? c = none) (start offset : Nat) (rest : List Char) :
    ∃ offset', scan g start offset 0 false (cs ++ rest) =
      scan g (start + cs.length) offset' 0 false rest := by
  induction cs generalizing start offset with
  | nil => exact ⟨offset, rfl⟩
  | cons c cs ih =>
    obtain ⟨offset', later⟩ := ih (fun d member => free d (List.mem_cons_of_mem c member))
      (start + 1) (offset + (Text.encodeChar c).length)
    have position : start + 1 + cs.length = start + (cs.length + 1) := by omega
    refine ⟨offset', ?_⟩
    rw [List.cons_append, scan]
    rcases free c List.mem_cons_self with space | unmarked
    · simp only [space, if_true, later, position, List.length_cons]
    · simp only [unmarked, ite_self, later, position, List.length_cons]

theorem scan_visible {g : Grammar} {c : Char} {cs : List Char} (visible : isSpace c = false)
    (free : ∀ d ∈ c :: cs, isSpace d = true ∨ g.mark? d = none) (start offset : Nat) (after : Bool)
    (rest : List Char) :
    ∃ offset', scan g start offset 0 after (c :: cs ++ rest) =
      scan g (start + (c :: cs).length) offset' 0 false rest := by
  obtain ⟨here, later⟩ := List.forall_mem_cons.1 free
  have unmarked : g.mark? c = none := here.resolve_left (by simp [visible])
  obtain ⟨offset', scanned⟩ :=
    scan_free later (start + 1) (offset + (Text.encodeChar c).length) rest
  have position : start + 1 + cs.length = start + (cs.length + 1) := by omega
  refine ⟨offset', ?_⟩
  rw [List.cons_append, scan]
  simp only [visible, unmarked, Bool.false_eq_true, if_false, scanned, position, List.length_cons]

/-- Parses a text that begins `offset` bytes into a whole. -/
def parseAt (g : Grammar) (offset : Nat) (cs : List Char) : Found Expr :=
  shifted offset id (parsePart g cs.toArray 0 cs.length)

theorem shifted_ok {α : Type} {b : Nat} {x : Found α} {a : α} :
    shifted b id x = .ok a ↔ x = .ok a := by
  cases x <;> simp [shifted]

section

variable {g : Grammar} {offset : Nat} {cs : List Char}

theorem slice_toArray (cs : List Char) (lo hi : Nat) :
    slice cs.toArray lo hi = (cs.drop lo).take (hi - lo) := by
  rw [slice, Array.toList_extract, List.extract_eq_take_drop]

theorem parseAt_iff {e : Expr} :
    parseAt g offset cs = .ok e ↔ parsePart g cs.toArray 0 cs.length = .ok e :=
  shifted_ok

theorem parsePart_iff {lo hi : Nat} (ordered : lo ≤ hi) (inside : hi ≤ cs.length) {e : Expr} :
    parsePart g cs.toArray lo hi = .ok e ↔
      parseAt g offset ((cs.drop lo).take (hi - lo)) = .ok e := by
  have bound : hi ≤ cs.toArray.size := inside
  have moved := @parsePart_extract cs.toArray lo hi bound g 0 (hi - lo) (by omega) (by omega)
  have part : cs.toArray.extract lo hi = ((cs.drop lo).take (hi - lo)).toArray := by
    rw [← slice_toArray, slice, Array.toArray_toList]
  have length : ((cs.drop lo).take (hi - lo)).length = hi - lo := by
    rw [List.length_take, List.length_drop]
    omega
  rw [Nat.add_zero, Nat.add_sub_cancel' ordered, part] at moved
  rw [moved, shifted_ok, parseAt_iff, length]

theorem parsePart_take {n : Nat} (inside : n ≤ cs.length) {e : Expr} :
    parsePart g cs.toArray 0 n = .ok e ↔ parseAt g offset (cs.take n) = .ok e := by
  rw [parsePart_iff (Nat.zero_le n) inside, List.drop_zero, Nat.sub_zero]

theorem parsePart_drop {n : Nat} (inside : n ≤ cs.length) {e : Expr} :
    parsePart g cs.toArray n cs.length = .ok e ↔ parseAt g offset (cs.drop n) = .ok e := by
  rw [parsePart_iff inside (Nat.le_refl _), ← List.length_drop, List.take_length]

theorem scanAt_of_scan {items : List Item} (scanned : scan g 0 offset 0 true cs = .ok items) :
    ∃ found, scanAt g cs.toArray 0 0 0 true cs.length = .ok found ∧
      items = found.map (Item.shift 0 offset) := by
  have whole := scanAt_toArray [] g offset 0 true cs
  have moved := @scanAt_extract cs.toArray 0 cs.toArray.size (Nat.le_refl _) g offset 0 0 0
    cs.length true (by simp)
  simp only [Nat.add_zero, Array.extract_size] at moved
  rw [List.nil_append, List.length_nil, scanned, moved] at whole
  cases alone : scanAt g cs.toArray 0 0 0 true cs.length with
  | error e =>
    rw [alone] at whole
    cases whole
  | ok found =>
    rw [alone] at whole
    cases whole
    exact ⟨found, rfl, rfl⟩

theorem byteOffset_zero (src : Array Char) : byteOffset src 0 = 0 := by
  simp [byteOffset, slice, Text.size, Text.encode]

theorem soleGroup_toArray (items : List Item) :
    soleGroup? cs.toArray cs.length items = soleBracket? cs items := by
  have behind (k : Nat) : slice cs.toArray k cs.length = cs.drop k := by
    rw [slice_toArray, ← List.length_drop, List.take_length]
  simp only [soleGroup?, behind]
  rfl

theorem soleBracket_shift (items : List Item) :
    soleBracket? cs (items.map (Item.shift 0 offset)) =
      (soleGroup? cs.toArray cs.length items).map (Prod.map id (Item.shift 0 offset)) := by
  have moved := @soleGroup_extract cs.toArray 0 cs.toArray.size offset cs.length (by simp) items
  rwa [Array.extract_size, Nat.zero_add, soleGroup_toArray] at moved

/-! The shape of a text by what its scan finds. -/

theorem shape_operand (scanned : scan g 0 offset 0 true cs = .ok []) :
    shape g cs.toArray 0 cs.length = .ok .operand := by
  obtain ⟨items, alone, moved⟩ := scanAt_of_scan scanned
  obtain rfl : items = [] := by simpa using moved
  rw [shape, byteOffset_zero, Nat.sub_zero, alone]

section

variable {items : List Item} (scanned : scan g 0 offset 0 true cs = .ok items)

include scanned

theorem shape_group {isSquare : Bool} {item : Item}
    (sole : soleBracket? cs items = some (isSquare, item)) :
    ∃ item', shape g cs.toArray 0 cs.length = .ok (.group isSquare item') ∧
      item = item'.shift 0 offset := by
  obtain ⟨items, alone, rfl⟩ := scanAt_of_scan scanned
  rw [soleBracket_shift] at sole
  obtain ⟨⟨square, item'⟩, sole', moved⟩ := Option.map_eq_some_iff.1 sole
  obtain ⟨rfl, rfl⟩ := Prod.mk.inj moved
  refine ⟨item', ?_, rfl⟩
  rw [shape, byteOffset_zero, Nat.sub_zero, alone]
  cases items with
  | nil => cases sole'
  | cons first rest =>
    simp only [sole']
    rfl

theorem shape_split {s : Split} (sole : soleBracket? cs items = none)
    (taken : split? g items = some s) :
    ∃ s', shape g cs.toArray 0 cs.length = .ok (.split s') ∧ s = s'.shift 0 offset := by
  obtain ⟨items, alone, rfl⟩ := scanAt_of_scan scanned
  rw [soleBracket_shift, Option.map_eq_none_iff] at sole
  rw [split_shift] at taken
  obtain ⟨s', taken', rfl⟩ := Option.map_eq_some_iff.1 taken
  refine ⟨s', ?_, rfl⟩
  rw [shape, byteOffset_zero, Nat.sub_zero, alone]
  cases items with
  | nil => cases (isOf_of_split taken').1
  | cons first rest => simp only [sole, taken']

end

/-! The parser by what the scan finds. -/

theorem parseAt_operand (scanned : scan g 0 offset 0 true cs = .ok []) :
    parseAt g offset cs = operand offset cs := by
  have whole : slice cs.toArray 0 cs.length = cs := by
    rw [slice_toArray, List.drop_zero, Nat.sub_zero, List.take_length]
  rw [parseAt, parsePart, shape_operand scanned]
  simp only [byteOffset_zero, whole, operand]
  cases Text.trimChars cs <;> rfl

theorem parseAt_nil : parseAt g offset [] = .error (offset, .missingOperand) :=
  parseAt_operand rfl

variable {items : List Item} (scanned : scan g 0 offset 0 true cs = .ok items)

include scanned

theorem parseAt_bracket {isSquare : Bool} {item : Item} {inner : Expr}
    (sole : soleBracket? cs items = some (isSquare, item))
    (alone : isBlankText (cs.take item.start) = true)
    (parsed : parseAt g (item.offset + 1) ((cs.drop (item.start + 1)).take (item.width - 2)) =
      .ok inner) :
    parseAt g offset cs = .ok inner.group := by
  obtain ⟨item, shaped, rfl⟩ := shape_group scanned sole
  obtain ⟨-, -, most⟩ : item.Within 0 (0 + (cs.length - 0)) := shape_within shaped rfl
  simp only [Item.shift, Nat.zero_add] at alone parsed
  have wide : 2 ≤ item.width := by
    apply Nat.le_of_not_lt
    intro narrow
    rw [Nat.sub_eq_zero_of_le (Nat.le_of_lt narrow), List.take_zero, parseAt_nil] at parsed
    cases parsed
  have before : slice cs.toArray 0 item.start = cs.take item.start := by
    rw [slice_toArray, List.drop_zero, Nat.sub_zero]
  have within : item.start + item.width - 1 - (item.start + 1) = item.width - 2 := by omega
  have inner' : parsePart g cs.toArray (item.start + 1) (item.start + item.width - 1) = .ok inner :=
    (parsePart_iff (by omega) (by omega)).2 (within ▸ parsed)
  rw [parseAt_iff, parsePart, shaped]
  simp only [inner', before, alone]
  rfl

theorem parseAt_between {op : String} {item : Item} {left right : Expr}
    (sole : soleBracket? cs items = none) (taken : split? g items = some (.between op item))
    (before : parseAt g offset (cs.take item.start) = .ok left)
    (after : parseAt g (item.offset + Text.size op) (cs.drop (item.start + item.width)) =
      .ok right) :
    parseAt g offset cs = .ok (binary op left right false) := by
  obtain ⟨s, shaped, moved⟩ := shape_split scanned sole taken
  cases s with
  | leading => cases moved
  | between op item =>
    cases moved
    obtain ⟨-, -, most⟩ : item.Within 0 (0 + (cs.length - 0)) := shape_within shaped rfl
    simp only [Item.shift, Nat.zero_add] at before after
    have left' : parsePart g cs.toArray 0 item.start = .ok left :=
      (parsePart_take (by omega)).2 before
    have right' : parsePart g cs.toArray (item.start + item.width) cs.length = .ok right :=
      (parsePart_drop (by omega)).2 after
    rw [parseAt_iff, parsePart, shaped]
    simp only [left', right']
    rfl

theorem parseAt_leading {op : String} {item : Item} {right : Expr}
    (sole : soleBracket? cs items = none) (taken : split? g items = some (.leading op item))
    (other : (op == "+") = false)
    (after : parseAt g (item.offset + Text.size op) (cs.drop (item.start + item.width)) =
      .ok right) :
    parseAt g offset cs = .ok (unary op right false) := by
  obtain ⟨s, shaped, moved⟩ := shape_split scanned sole taken
  cases s with
  | between => cases moved
  | leading op item =>
    cases moved
    obtain ⟨-, -, most⟩ : item.Within 0 (0 + (cs.length - 0)) := shape_within shaped rfl
    simp only [Item.shift, Nat.zero_add] at after
    have right' : parsePart g cs.toArray (item.start + item.width) cs.length = .ok right :=
      (parsePart_drop (by omega)).2 after
    rw [parseAt_iff, parsePart, shaped]
    simp only [right', other]
    rfl

end

end Expr.Parser

theorem Expr.parseWith_eq (g : Grammar) (source : String) :
    parseWith g source =
      match Parser.parseAt g 0 source.toList with
      | .ok e => .ok e
      | .error (offset, flaw) => .error ⟨source, offset, flaw⟩ := by
  rw [parseWith, parseWithin, Parser.parseAt, String.length_toList]
  cases Parser.parsePart g source.toList.toArray 0 source.length with
  | ok e => rfl
  | error e => simp only [Parser.shifted, Nat.zero_add]

end WordAsm
