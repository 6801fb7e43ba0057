import WordAsm.Expr.Parser
import WordAsm.Proofs.Evaluation
import WordAsm.Proofs.TextBytes

/-!
Parts of an expression. Neither the scan nor any of its look-aheads reads past the end of a part, so
a part is parsed within the whole as it is by itself; only positions and offsets count from the
start of the whole. Main statement: the two results are the same but for the offset of an error,
which moves by the bytes before the part.
-/
namespace WordAsm

namespace Expr.Parser

/-- The item as it is found `k` characters and `b` bytes further on. -/
def Item.shift (k b : Nat) (item : Item) : Item :=
  { item with start := k + item.start, offset := b + item.offset }

def Split.shift (k b : Nat) : Split → Split
  | between op item => between op (item.shift k b)
  | leading op item => leading op (item.shift k b)

def Shape.shift (k b : Nat) : Shape → Shape
  | operand => operand
  | group isSquare item => group isSquare (item.shift k b)
  | split s => split (s.shift k b)

/-- What is found `b` bytes further on. -/
def shifted {α β : Type} (b : Nat) (f : α → β) : Found α → Found β
  | .ok a => .ok (f a)
  | .error (offset, flaw) => .error (b + offset, flaw)

theorem shifted_found (k b : Nat) (item : Item) (later : Found (List Item)) :
    shifted b (List.map (Item.shift k b)) (found item later) =
      found (item.shift k b) (shifted b (List.map (Item.shift k b)) later) := by
  cases later <;> rfl

section

variable {src : Array Char} {lo hi : Nat} (inside : hi ≤ src.size)

include inside

theorem charAt_extract {i : Nat} (bound : lo + i < hi) :
    charAt src (lo + i) = charAt (src.extract lo hi) i := by
  simp only [charAt, Array.getD_eq_getD_getElem?, Array.getElem?_extract]
  rw [if_pos (by omega)]

omit inside in
theorem slice_extract {a b : Nat} (bound : lo + b ≤ hi) :
    slice src (lo + a) (lo + b) = slice (src.extract lo hi) a b := by
  rw [slice, slice, Array.extract_extract, Nat.min_eq_left bound]

omit inside in
theorem byteOffset_extract {a : Nat} (bound : lo + a ≤ hi) :
    byteOffset src (lo + a) = byteOffset src lo + byteOffset (src.extract lo hi) a := by
  have parts : slice src 0 (lo + a) = slice src 0 lo ++ slice src lo (lo + a) := by
    have joined := @Array.extract_append_extract Char src 0 lo (lo + a)
    rw [Nat.min_eq_left (Nat.zero_le lo), Nat.max_eq_right (Nat.le_add_right lo a)] at joined
    rw [slice, ← joined, Array.toList_append]
    rfl
  have part : slice src lo (lo + a) = slice (src.extract lo hi) 0 a :=
    slice_extract (a := 0) bound
  rw [byteOffset, parts, part, String.ofList_append, Text.size_append, byteOffset,
    byteOffset]

/-! Look-aheads stop at the end of the part. -/

theorem closingAt_extract {depth i left : Nat} (bound : lo + i + left ≤ hi) :
    closingAt src depth (lo + i) left = closingAt (src.extract lo hi) depth i left := by
  induction left generalizing depth i with
  | zero => rfl
  | succ left ih =>
    have char : charAt src (lo + i) = charAt (src.extract lo hi) i :=
      charAt_extract inside (by omega)
    have later (depth : Nat) : closingAt src depth (lo + i + 1) left =
        closingAt (src.extract lo hi) depth (i + 1) left := ih (i := i + 1) (by omega)
    simp only [closingAt, char, later]

theorem startsAt_extract {i left : Nat} (bound : lo + i + left ≤ hi) (cs : List Char) :
    startsAt src (lo + i) left cs = startsAt (src.extract lo hi) i left cs := by
  induction cs generalizing i left with
  | nil => rfl
  | cons c cs ih =>
    cases left with
    | zero => rfl
    | succ left =>
      have later : startsAt src (lo + i + 1) left cs =
          startsAt (src.extract lo hi) (i + 1) left cs := ih (i := i + 1) (by omega)
      rw [startsAt, startsAt, charAt_extract inside (by omega), later]

theorem operatorAt_extract (g : Grammar) {i left : Nat} (bound : lo + i + left ≤ hi) :
    operatorAt? g src (lo + i) left = operatorAt? g (src.extract lo hi) i left := by
  simp only [operatorAt?, startsAt_extract inside bound]

theorem scanAt_extract (g : Grammar) (b : Nat) {i offset skip left : Nat} {after : Bool}
    (bound : lo + i + left ≤ hi) :
    scanAt g src (lo + i) (b + offset) skip after left =
      shifted b (List.map (Item.shift lo b))
        (scanAt g (src.extract lo hi) i offset skip after left) := by
  induction left generalizing i offset skip after with
  | zero => rfl
  | succ left ih =>
    have char : charAt src (lo + i) = charAt (src.extract lo hi) i :=
      charAt_extract inside (by omega)
    have later (size skip : Nat) (after : Bool) :
        scanAt g src (lo + i + 1) (b + offset + size) skip after left =
          shifted b (List.map (Item.shift lo b))
            (scanAt g (src.extract lo hi) (i + 1) (offset + size) skip after left) := by
      rw [Nat.add_assoc b offset size]
      exact ih (i := i + 1) (by omega)
    simp only [scanAt, char, later, closingAt_extract inside bound,
      operatorAt_extract inside g bound]
    cases skip with
    | succ k => rfl
    | zero =>
      dsimp only
      split
      · rfl
      · split
        · rfl
        · split
          · split
            · rfl
            · rw [shifted_found]
              rfl
          · split
            · rw [shifted_found]
              rfl
            · rw [shifted, Nat.add_assoc]

end

/-! The choice of an item does not depend on where the items stand. -/

section

variable (g : Grammar) (k b : Nat)

theorem binaryIn_shift (group : Nat) (item : Item) :
    binaryIn g group (item.shift k b) = (binaryIn g group item).map (Split.shift k b) := by
  simp only [binaryIn, Item.shift]
  split
  · split <;> rfl
  · rfl

theorem unaryIn_shift (group : Nat) (item : Item) :
    unaryIn g group (item.shift k b) = (unaryIn g group item).map (Split.shift k b) := by
  simp only [unaryIn, Item.shift]
  split
  · split <;> rfl
  · rfl

theorem splitIn_shift (items : List Item) (group : Nat) :
    splitIn g (items.map (Item.shift k b)) group =
      (splitIn g items group).map (Split.shift k b) := by
  have between : (items.map (Item.shift k b)).reverse.findSome? (binaryIn g group) =
      (items.reverse.findSome? (binaryIn g group)).map (Split.shift k b) := by
    rw [← List.map_reverse, List.findSome?_map, List.map_findSome?]
    congr 1
    funext item
    exact binaryIn_shift g k b group item
  have leading : (items.map (Item.shift k b)).head?.bind (unaryIn g group) =
      (items.head?.bind (unaryIn g group)).map (Split.shift k b) := by
    cases items with
    | nil => rfl
    | cons item items => exact unaryIn_shift g k b group item
  rw [splitIn, splitIn, between, leading]
  cases items.reverse.findSome? (binaryIn g group) <;> rfl

theorem split_shift (items : List Item) :
    split? g (items.map (Item.shift k b)) = (split? g items).map (Split.shift k b) := by
  rw [split?, split?, List.map_findSome?]
  congr 1
  funext group
  exact splitIn_shift g k b items group

theorem culprit_shift (first : Item) (rest : List Item) :
    culprit (first.shift k b) (rest.map (Item.shift k b)) = b + culprit first rest := by
  have same : (fun item : Item => item.mark.isOperator) ∘ Item.shift k b =
      fun item => item.mark.isOperator := rfl
  rw [culprit, culprit, ← List.map_cons, List.find?_map, same]
  cases (first :: rest).find? fun item => item.mark.isOperator <;> rfl

end

section

variable {src : Array Char} {lo hi : Nat}

theorem soleGroup_extract (b : Nat) {n : Nat} (bound : lo + n ≤ hi) (items : List Item) :
    soleGroup? src (lo + n) (items.map (Item.shift lo b)) =
      (soleGroup? (src.extract lo hi) n items).map (Prod.map id (Item.shift lo b)) := by
  cases items with
  | nil => rfl
  | cons item items =>
    cases items with
    | cons => rfl
    | nil =>
      have behind : slice src (lo + item.start + item.width) (lo + n) =
          slice (src.extract lo hi) (item.start + item.width) n := by
        rw [Nat.add_assoc]
        exact slice_extract bound
      simp only [List.map, soleGroup?, Item.shift, behind]
      split
      · split <;> rfl
      · rfl

variable (inside : hi ≤ src.size)

include inside

theorem shape_extract (g : Grammar) {m n : Nat} (begins : lo + m ≤ hi) (ends : lo + n ≤ hi) :
    shape g src (lo + m) (lo + n) =
      shifted (byteOffset src lo) (Shape.shift lo (byteOffset src lo))
        (shape g (src.extract lo hi) m n) := by
  have scanned := @scanAt_extract src lo hi inside g (byteOffset src lo) m
    (byteOffset (src.extract lo hi) m) 0 (n - m) true (by omega)
  rw [← byteOffset_extract begins] at scanned
  have count : lo + n - (lo + m) = n - m := by omega
  rw [shape, shape, count, scanned]
  cases scanAt g (src.extract lo hi) m (byteOffset (src.extract lo hi) m) 0 true (n - m) with
  | error e => rfl
  | ok items =>
    cases items with
    | nil => rfl
    | cons first rest =>
      have sole := @soleGroup_extract src lo hi (byteOffset src lo) n ends (first :: rest)
      have taken := split_shift g lo (byteOffset src lo) (first :: rest)
      have blamed := culprit_shift lo (byteOffset src lo) first rest
      simp only [shifted, List.map_cons] at sole taken ⊢
      rw [sole, taken, blamed]
      cases soleGroup? (src.extract lo hi) n (first :: rest) with
      | some found => rfl
      | none => cases split? g (first :: rest) <;> rfl

theorem parsePart_extract (g : Grammar) {m n : Nat} (begins : lo + m ≤ hi) (ends : lo + n ≤ hi) :
    parsePart g src (lo + m) (lo + n) =
      shifted (byteOffset src lo) id (parsePart g (src.extract lo hi) m n) := by
  induction size : n - m using Nat.strongRecOn generalizing m n with
  | ind count ih =>
    -- Both sides take the same item, which stands `lo` characters further on in the whole.
    have outer := shape_extract inside g begins ends
    have smaller (a b : Nat) (begins : lo + a ≤ hi) (ends : lo + b ≤ hi) (less : b - a < n - m) :
        parsePart g src (lo + a) (lo + b) =
          shifted (byteOffset src lo) id (parsePart g (src.extract lo hi) a b) :=
      ih (b - a) (size ▸ less) begins ends rfl
    cases alone : shape g (src.extract lo hi) m n with
    | error e =>
      rw [parsePart, outer, parsePart, alone]
      rfl
    | ok s =>
      rw [alone] at outer
      rw [parsePart, outer, parsePart, alone]
      cases s with
      | operand =>
        simp only [shifted, Shape.shift]
        rw [slice_extract ends, byteOffset_extract begins, operand, operand]
        cases Text.trimChars (slice (src.extract lo hi) m n) <;> rfl
      | group isSquare item =>
        obtain ⟨least, filled, most⟩ : item.Within m (m + (n - m)) := shape_within alone rfl
        have inner := smaller (item.start + 1) (item.start + item.width - 1) (by omega) (by omega)
          (by omega)
        have left := smaller m item.start begins (by omega) (by omega)
        have before : slice src (lo + m) (lo + item.start) =
            slice (src.extract lo hi) m item.start := slice_extract (by omega)
        have last : lo + item.start + item.width - 1 = lo + (item.start + item.width - 1) := by
          omega
        simp only [shifted, Shape.shift, Item.shift, last, before, left]
        rw [Nat.add_assoc lo item.start 1, inner]
        cases parsePart g (src.extract lo hi) (item.start + 1) (item.start + item.width - 1) with
        | error e => rfl
        | ok e =>
          by_cases blank : isBlankText (slice (src.extract lo hi) m item.start) = true
          · simp only [blank, if_true]
            rfl
          · simp only [blank]
            cases parsePart g (src.extract lo hi) m item.start <;> rfl
      | split s =>
        cases s with
        | between op item =>
          obtain ⟨least, filled, most⟩ : item.Within m (m + (n - m)) := shape_within alone rfl
          have left := smaller m item.start begins (by omega) (by omega)
          have right := smaller (item.start + item.width) n (by omega) ends (by omega)
          simp only [shifted, Shape.shift, Split.shift, Item.shift, Nat.add_assoc, left, right]
          cases parsePart g (src.extract lo hi) m item.start with
          | error e => rfl
          | ok e => cases parsePart g (src.extract lo hi) (item.start + item.width) n <;> rfl
        | leading op item =>
          obtain ⟨least, filled, most⟩ : item.Within m (m + (n - m)) := shape_within alone rfl
          have right := smaller (item.start + item.width) n (by omega) ends (by omega)
          simp only [shifted, Shape.shift, Split.shift, Item.shift, Nat.add_assoc, right]
          cases parsePart g (src.extract lo hi) (item.start + item.width) n <;> rfl

end

/-! Errors lie within the whole. -/

theorem mark_bound {g : Grammar} {c : Char} {n : Nat} {b : UInt8}
    (marked : g.mark? c = some (n, b)) : n < (Text.encodeChar c).length := by
  rw [Grammar.mark?] at marked
  split at marked
  · rename_i found
    obtain ⟨rfl, rfl⟩ : _ = n ∧ _ = b := by simpa using marked
    have member := List.mem_of_find?_eq_some found
    exact List.snd_lt_of_mem_zipIdx member
  · cases marked

section

variable {src : Array Char}

theorem byteOffset_mono {i j : Nat} (ordered : i ≤ j) : byteOffset src i ≤ byteOffset src j := by
  obtain ⟨k, rfl⟩ := Nat.exists_eq_add_of_le ordered
  rw [byteOffset_extract (Nat.le_refl (i + k))]
  exact Nat.le_add_right ..

theorem byteOffset_succ {i : Nat} (inside : i < src.size) :
    byteOffset src (i + 1) = byteOffset src i + (Text.encodeChar (charAt src i)).length := by
  have single : slice (src.extract i (i + 1)) 0 1 = [charAt src i] := by
    simp [slice, charAt, inside, List.drop_eq_getElem_cons]
  rw [byteOffset_extract (Nat.le_refl (i + 1)), byteOffset, byteOffset, single, Text.size,
    Text.size, Text.encode_ofList, Text.encode_ofList, List.flatMap_singleton]

/-- The offsets of an error or of items. -/
def offsets : Found (List Item) → List Nat
  | .ok items => items.map Item.offset
  | .error (offset, _) => [offset]

theorem mem_offsets_found {item : Item} {later : Found (List Item)} {offset : Nat}
    (member : offset ∈ offsets (found item later)) :
    offset = item.offset ∨ offset ∈ offsets later := by
  cases later with
  | ok items => exact List.mem_cons.1 member
  | error e => exact .inr member

theorem offsets_scanAt (g : Grammar) {i left skip : Nat} {after : Bool}
    (inside : i + left ≤ src.size) :
    ∀ offset ∈ offsets (scanAt g src i (byteOffset src i) skip after left),
      offset ≤ byteOffset src (i + left) := by
  induction left generalizing i skip after with
  | zero => simp [scanAt, offsets]
  | succ left ih =>
    have next := @byteOffset_succ src i (by omega)
    have here : byteOffset src i + (Text.encodeChar (charAt src i)).length ≤
        byteOffset src (i + (left + 1)) := next ▸ byteOffset_mono (by omega)
    have later (skip : Nat) (after : Bool) : ∀ offset ∈ offsets (scanAt g src (i + 1)
        (byteOffset src i + (Text.encodeChar (charAt src i)).length) skip after left),
        offset ≤ byteOffset src (i + (left + 1)) := by
      rw [← next]
      have rest := @ih (i + 1) skip after (by omega)
      rwa [Nat.add_right_comm i 1 left] at rest
    intro offset member
    simp only [scanAt] at member
    split at member
    · exact later _ _ offset member
    · split at member
      · exact later _ _ offset member
      · split at member
        · exact later _ _ offset member
        · rename_i marked
          have bound := mark_bound marked
          split at member
          · split at member
            · rw [List.mem_singleton.1 member]
              omega
            · rcases mem_offsets_found member with rfl | member
              · simp only
                omega
              · exact later _ _ offset member
          · split at member
            · rcases mem_offsets_found member with rfl | member
              · simp only
                omega
              · exact later _ _ offset member
            · rw [List.mem_singleton.1 member]
              omega

theorem culprit_mem (first : Item) (rest : List Item) :
    culprit first rest ∈ (first :: rest).map Item.offset := by
  unfold culprit
  split
  · rename_i found
    exact List.mem_map_of_mem (List.mem_of_find?_eq_some found)
  · exact List.mem_map_of_mem List.mem_cons_self

theorem offset_of_shape {g : Grammar} {lo hi offset : Nat} {flaw : Flaw}
    (inside : lo + (hi - lo) ≤ src.size) (failed : shape g src lo hi = .error (offset, flaw)) :
    offset ≤ byteOffset src (lo + (hi - lo)) := by
  apply @offsets_scanAt src g lo (hi - lo) 0 true inside
  unfold shape at failed
  split at failed
  · rename_i scanned
    rw [scanned]
    cases failed
    exact List.mem_singleton_self _
  · cases failed
  · rename_i scanned
    rw [scanned]
    split at failed
    · cases failed
    · split at failed
      · cases failed
      · cases failed
        exact culprit_mem ..

theorem parsePart_failed {g : Grammar} {lo hi : Nat} {e : Nat × Flaw}
    (failed : parsePart g src lo hi = .error e) :
    shape g src lo hi = .error e ∨ e = (byteOffset src lo, .missingOperand) ∨
      ∃ a b, b - a < hi - lo ∧ a + (b - a) ≤ lo + (hi - lo) ∧ parsePart g src a b = .error e := by
  cases shaped : shape g src lo hi with
  | error e' =>
    rw [parsePart, shaped] at failed
    cases failed
    exact .inl rfl
  | ok s =>
    rw [parsePart, shaped] at failed
    right
    cases s with
    | operand =>
      simp only [operand] at failed
      split at failed
      · cases failed
        exact .inl rfl
      · cases failed
    | group isSquare item =>
      obtain ⟨least, filled, most⟩ : item.Within lo (lo + (hi - lo)) := shape_within shaped rfl
      right
      rcases bind_error failed with inner | ⟨e', -, failed⟩
      · exact ⟨_, _, by omega, by omega, inner⟩
      · split at failed
        · cases failed
        · rcases bind_error failed with left | ⟨e', -, failed⟩
          · exact ⟨_, _, by omega, by omega, left⟩
          · cases failed
    | split s =>
      right
      cases s with
      | between op item =>
        obtain ⟨least, filled, most⟩ : item.Within lo (lo + (hi - lo)) := shape_within shaped rfl
        rcases bind_error failed with left | ⟨e', -, failed⟩
        · exact ⟨_, _, by omega, by omega, left⟩
        · rcases bind_error failed with right | ⟨e', -, failed⟩
          · exact ⟨_, _, by omega, by omega, right⟩
          · cases failed
      | leading op item =>
        obtain ⟨least, filled, most⟩ : item.Within lo (lo + (hi - lo)) := shape_within shaped rfl
        rcases bind_error failed with right | ⟨e', -, failed⟩
        · exact ⟨_, _, by omega, by omega, right⟩
        · cases failed

theorem offset_of_parsePart {g : Grammar} {lo hi offset : Nat} {flaw : Flaw}
    (inside : lo + (hi - lo) ≤ src.size) (failed : parsePart g src lo hi = .error (offset, flaw)) :
    offset ≤ byteOffset src (lo + (hi - lo)) := by
  induction size : hi - lo using Nat.strongRecOn generalizing lo hi with
  | ind count ih =>
    rw [← size]
    rcases parsePart_failed failed with shaped | missing | ⟨a, b, less, last, failed⟩
    · exact offset_of_shape inside shaped
    · cases missing
      exact byteOffset_mono (Nat.le_add_right ..)
    · exact Nat.le_trans (ih (b - a) (size ▸ less) (by omega) failed rfl) (byteOffset_mono last)

end

/-! Whole texts. -/

theorem extract_parts (before part after : String) :
    (before ++ part ++ after).toList.toArray.extract before.length (before.length + part.length) =
      part.toList.toArray := by
  rw [← String.length_toList, ← String.length_toList, String.toList_append, String.toList_append]
  simp [List.extract_eq_take_drop]

theorem byteOffset_prefix (before after : String) :
    byteOffset (before ++ after).toList.toArray before.length = Text.size before := by
  have front : slice (before ++ after).toList.toArray 0 before.length = before.toList := by
    rw [← String.length_toList, String.toList_append]
    simp [slice, List.extract_eq_take_drop]
  rw [byteOffset, front, String.ofList_toList]

end Expr.Parser

namespace Expr

theorem parseWithin_parts (g : Grammar) (before part after : String) :
    parseWithin g (before ++ part ++ after) before.length (before.length + part.length) =
      (parseWith g part).mapError fun e =>
        ⟨before ++ part ++ after, Text.size before + e.offset, e.flaw⟩ := by
  have inside : before.length + part.length ≤ (before ++ part ++ after).toList.toArray.size := by
    rw [List.size_toArray, String.length_toList, String.length_append, String.length_append]
    exact Nat.le_add_right ..
  have moved := @Parser.parsePart_extract _ before.length _ inside g 0 part.length (by omega)
    (Nat.le_refl _)
  have place := Parser.byteOffset_prefix before (part ++ after)
  rw [← String.append_assoc] at place
  rw [Nat.add_zero, Parser.extract_parts, place] at moved
  rw [parseWithin, moved, parseWith, parseWithin]
  cases Parser.parsePart g part.toList.toArray 0 part.length <;> rfl

theorem offset_of_parseWith {g : Grammar} {source : String} {e : ParseError}
    (failed : parseWith g source = .error e) :
    e.source = source ∧ e.offset ≤ Text.size source := by
  rw [parseWith, parseWithin] at failed
  split at failed
  · cases failed
  · rename_i offset flaw parsed
    cases failed
    have bound := Parser.offset_of_parsePart (by simp [String.length_toList]) parsed
    have whole := Parser.byteOffset_prefix source ""
    rw [String.append_empty] at whole
    rw [Nat.zero_add, Nat.sub_zero, whole] at bound
    exact ⟨rfl, bound⟩

/-- By the operators of any table, a part of an expression is parsed within it as by itself; in an
error the whole stands for the part, and the bytes before the part are added to its offset. A part
may begin and end between any two bytes of the whole, also inside of a character. No error lies
outside of the text. -/
theorem parts_parse_alone (table : Precedence) :
    let g := Grammar.ofTable table
    (∀ before part after : String,
      parseWithin g (before ++ part ++ after) before.length (before.length + part.length) =
        (parseWith g part).mapError fun e =>
          ⟨before ++ part ++ after, Text.size before + e.offset, e.flaw⟩) ∧
    (∀ (bytes : List UInt8) (lo hi : Nat), lo ≤ hi → hi ≤ bytes.length →
      let before := Text.decode (bytes.take lo)
      let part := Text.decode ((bytes.take hi).drop lo)
      let source := before ++ part ++ Text.decode (bytes.drop hi)
      Text.encode source = bytes ∧
        parseWithin g source before.length (before.length + part.length) =
          (parseWith g part).mapError fun e => ⟨source, lo + e.offset, e.flaw⟩) ∧
    ∀ source e, parseWith g source = .error e →
      e.source = source ∧ e.offset ≤ Text.size source := by
  refine ⟨parseWithin_parts _, ?_, fun _ _ => offset_of_parseWith⟩
  intro bytes lo hi ordered inside before part source
  have whole : Text.encode source = bytes := by
    have nested : bytes.take lo = (bytes.take hi).take lo := by
      rw [List.take_take, Nat.min_eq_left ordered]
    simp only [source, before, part, Text.encode_append, Text.encode_decode]
    rw [nested, List.take_append_drop, List.take_append_drop]
  have front : Text.size before = lo := by
    rw [Text.size_decode, List.length_take, Nat.min_eq_left (Nat.le_trans ordered inside)]
  refine ⟨whole, ?_⟩
  rw [parseWithin_parts, front]

-- A character of two bytes stands before the part, so that the bracket is after six bytes.
example : parseWithin (.ofTable [["+"]]) "é+(1 ) 2)" 3 8 =
    .error ⟨"é+(1 ) 2)", 6, .unknownOperator ')'⟩ := by cbv

-- The cut is inside of the first character, whose second byte begins the part.
theorem parts_parse_alone_inside_character :
    let bytes : List UInt8 := [0xC3, 0xA9, 0x2B, 0x29]
    let before := Text.decode (bytes.take 1)
    let part := Text.decode ((bytes.take 4).drop 1)
    let source := before ++ part ++ Text.decode (bytes.drop 4)
    Text.encode source = bytes ∧
      parseWithin (.ofTable [["+"]]) source before.length (before.length + part.length) =
        .error ⟨source, 3, .unknownOperator ')'⟩ ∧
      2 ≤ Text.size part := by
  intro bytes before part source
  have length : part.length = 3 := by decide +kernel
  have shaped : Parser.shape (.ofTable [["+"]])
      (Text.decode [0xA9, 0x2B, 0x29]).toList.toArray 0 3 = .error (2, .unknownOperator ')') := by
    rfl
  change Parser.shape _ part.toList.toArray 0 3 = _ at shaped
  have alone : parseWith (.ofTable [["+"]]) part = .error ⟨part, 2, .unknownOperator ')'⟩ := by
    rw [parseWith, parseWithin, length, Parser.parsePart, shaped]
  obtain ⟨-, cuts, bounds⟩ := parts_parse_alone [["+"]]
  obtain ⟨whole, within⟩ := cuts bytes 1 4 (by decide) (by decide)
  refine ⟨whole, ?_, (bounds part _ alone).2⟩
  rw [within, alone]
  rfl

end Expr

end WordAsm
