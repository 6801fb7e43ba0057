import Mathlib.Data.List.Basic
import WordAsm.Proofs.Evaluation
import WordAsm.Statement.StringLiteral

/-!
Strings of two characters a word, read back byte by byte in the order of the packing. The room
computed for a string with one marker is enough for its characters and the marker, and at most
one byte of it is left over.
-/
namespace WordAsm

theorem toUInt8_lowWord (n : Int64) : (lowWord n).toUInt8 = UInt8.ofInt n.toInt := by
  have signed : n.toInt = _ := BitVec.toInt_eq_toNat_cond n.toBitVec
  have bits : n.toBitVec.toNat = n.toUInt64.toNat := rfl
  rw [bits] at signed
  have reduced : (UInt8.ofInt n.toInt).toNat = (n.toInt % 256).toNat % 256 := by
    simp [UInt8.ofInt]
  apply UInt8.toNat_inj.mp
  rw [reduced, lowWord, UInt16.toNat_toUInt8, UInt64.toNat_toUInt16]
  split at signed <;> omega

namespace StringFlags

def halves (lowFirst : Bool) (w : UInt16) : List UInt8 :=
  if lowFirst then [w.toUInt8, (w >>> 8).toUInt8] else [(w >>> 8).toUInt8, w.toUInt8]

/-- The bytes of words in the order of a packing. -/
def bytesOf (lowFirst : Bool) (words : List UInt16) : List UInt8 := words.flatMap (halves lowFirst)

@[simp]
theorem length_halves (lowFirst : Bool) (w : UInt16) : (halves lowFirst w).length = 2 := by
  cases lowFirst <;> rfl

@[simp]
theorem bytesOf_nil (lowFirst : Bool) : bytesOf lowFirst [] = [] := rfl

@[simp]
theorem bytesOf_cons (lowFirst : Bool) (w : UInt16) (words : List UInt16) :
    bytesOf lowFirst (w :: words) = halves lowFirst w ++ bytesOf lowFirst words := rfl

@[simp]
theorem bytesOf_append (lowFirst : Bool) (words more : List UInt16) :
    bytesOf lowFirst (words ++ more) = bytesOf lowFirst words ++ bytesOf lowFirst more := by
  simp [bytesOf]

@[simp]
theorem length_bytesOf (lowFirst : Bool) (words : List UInt16) :
    (bytesOf lowFirst words).length = 2 * words.length := by
  induction words with
  | nil => rfl
  | cons w words ih => simp [ih]; omega

theorem halves_zero (lowFirst : Bool) : halves lowFirst 0 = [0, 0] := by cases lowFirst <;> rfl

theorem bytesOf_zeros (lowFirst : Bool) (size : Nat) :
    bytesOf lowFirst (List.replicate size 0) = List.replicate (2 * size) 0 := by
  induction size with
  | zero => rfl
  | succ size ih => simp [List.replicate_succ, ih, halves_zero, Nat.mul_add]

theorem halves_inj {lowFirst : Bool} {v w : UInt16} (same : halves lowFirst v = halves lowFirst w) :
    v = w := by
  have parts : v.toUInt8 = w.toUInt8 ∧ (v >>> 8).toUInt8 = (w >>> 8).toUInt8 := by
    cases lowFirst <;> simp [halves] at same <;> simp [same]
  have low := congrArg UInt8.toNat parts.1
  have high := congrArg UInt8.toNat parts.2
  simp [Nat.shiftRight_eq_div_pow] at low high
  have := v.toNat_lt
  have := w.toNat_lt
  exact UInt16.toNat_inj.mp (by omega)

theorem halves_or (lowFirst : Bool) (position : Nat) (c w : UInt16) :
    halves lowFirst (w ||| half lowFirst position c) =
      (halves lowFirst w).modify (position % 2) (· ||| c.toUInt8) := by
  have raised : (c <<< 8 >>> 8).toUInt8 = c.toUInt8 := by
    apply UInt8.toNat_inj.mp
    simp [Nat.shiftRight_eq_div_pow, Nat.shiftLeft_eq]
    omega
  have below : (c <<< 8).toUInt8 = 0 := by
    apply UInt8.toNat_inj.mp
    simp [Nat.shiftLeft_eq]
  have above : ((c &&& 0xFF) >>> 8).toUInt8 = 0 := by
    have masked : c.toNat &&& 255 = c.toNat % 256 := Nat.and_two_pow_sub_one_eq_mod _ 8
    apply UInt8.toNat_inj.mp
    simp [Nat.shiftRight_eq_div_pow, masked]
  have kept : c.toUInt8 &&& 255 = c.toUInt8 := UInt8.and_neg_one
  rcases Nat.mod_two_eq_zero_or_one position with even | odd <;> cases lowFirst <;>
    simp [halves, half, UInt16.shiftRight_or, *]

theorem modify_append {α : Type} (f : α → α) (front rest : List α) (i : Nat) :
    (front ++ rest).modify (front.length + i) f = front ++ rest.modify i f :=
  List.modifyTailIdx_add _ i front rest

theorem bytesOf_modify (lowFirst : Bool) (index position : Nat) (c : UInt16) (words : List UInt16) :
    bytesOf lowFirst (words.modify index (· ||| half lowFirst position c)) =
      (bytesOf lowFirst words).modify (2 * index + position % 2) (· ||| c.toUInt8) := by
  induction words generalizing index with
  | nil => simp
  | cons w words ih =>
    cases index with
    | zero =>
      obtain ⟨first, second, both⟩ := List.length_eq_two.mp (length_halves lowFirst w)
      rcases Nat.mod_two_eq_zero_or_one position with even | odd <;>
        simp [halves_or, *]
    | succ index =>
      have later := modify_append (· ||| c.toUInt8) (halves lowFirst w) (bytesOf lowFirst words)
        (2 * index + position % 2)
      rw [length_halves] at later
      rw [List.modify_succ_cons, bytesOf_cons, bytesOf_cons, ih, ← later]
      congr 1
      omega

theorem put_half {lowFirst : Bool} (start position : Nat) {front rest : List UInt8}
    {words : List UInt16} (c : UInt16) (reads : bytesOf lowFirst words = front ++ 0 :: rest)
    (reached : front.length = 2 * start + position) :
    ∃ after, put (position / 2 + start) (half lowFirst position c) words = some after ∧
      bytesOf lowFirst after = front ++ c.toUInt8 :: rest := by
  have room := congrArg List.length reads
  simp only [length_bytesOf, List.length_append, List.length_cons] at room
  refine ⟨_, if_pos (by omega), ?_⟩
  have index : 2 * (position / 2 + start) + position % 2 = front.length + 0 := by omega
  rw [bytesOf_modify, reads, index, modify_append]
  simp

theorem fill_zeros {lowFirst : Bool} (start position : Nat) {pad : Nat} {front : List UInt8}
    {words : List UInt16} (chars : List UInt16)
    (reads : bytesOf lowFirst words = front ++ List.replicate (chars.length + pad) 0)
    (reached : front.length = 2 * start + position) :
    ∃ after, fill lowFirst start position chars words = some after ∧
      bytesOf lowFirst after =
        front ++ chars.map UInt16.toUInt8 ++ List.replicate pad 0 := by
  induction chars generalizing position front words with
  | nil => exact ⟨words, rfl, by simpa using reads⟩
  | cons c rest ih =>
    -- The character takes the first of the zeros, and the front ends with it from then on.
    rw [List.length_cons, Nat.add_right_comm] at reads
    obtain ⟨once, put, now⟩ := put_half start position c reads reached
    have reads' : bytesOf lowFirst once =
        (front ++ [c.toUInt8]) ++ List.replicate (rest.length + pad) 0 := by simpa using now
    have reached' : (front ++ [c.toUInt8]).length = 2 * start + (position + 1) := by
      simp [reached, Nat.add_assoc]
    obtain ⟨after, filled, all⟩ := ih (position + 1) reads' reached'
    exact ⟨after, by rw [fill, put]; exact filled, by simpa using all⟩

theorem put_or (index : Nat) (a b : UInt16) (words : List UInt16) :
    put index (a ||| b) words = (put index a words).bind (put index b) := by
  by_cases inside : index < words.length
  · have both : (· ||| b) ∘ (· ||| a) = (· ||| (a ||| b)) := by
      funext w
      simp [UInt16.or_assoc]
    simp [put, inside, List.modify_modify_eq, both]
  · simp [put, inside]

theorem fill_after_count (lowFirst : Bool) (count : UInt16) (chars : List UInt16) {size pad : Nat}
    (room : 2 * size = 2 + chars.length + pad) :
    ∃ words, (put 0 count (List.replicate size 0)).bind (fill lowFirst 1 0 chars) = some words ∧
      bytesOf lowFirst words =
        halves lowFirst count ++ chars.map UInt16.toUInt8 ++ List.replicate pad 0 := by
  obtain ⟨more, rfl⟩ : ∃ more, size = more + 1 := ⟨size - 1, by omega⟩
  have left : 2 * more = chars.length + pad := by omega
  have reads : bytesOf lowFirst (count :: List.replicate more 0) =
      halves lowFirst count ++ List.replicate (chars.length + pad) 0 := by
    rw [bytesOf_cons, bytesOf_zeros, left]
  obtain ⟨words, filled, all⟩ := fill_zeros 1 0 chars reads (length_halves lowFirst count)
  exact ⟨words, by simpa [put, List.replicate_succ] using filled, all⟩

theorem fill_after_shared (lowFirst : Bool) (count : UInt16) (chars : List UInt16) {size pad : Nat}
    (room : 2 * size = 1 + chars.length + pad) :
    ∃ words, (put 0 (half lowFirst 0 count ||| half lowFirst 1 (chars.headD 0))
        (List.replicate size 0)).bind (fill lowFirst 1 0 chars.tail) = some words ∧
      bytesOf lowFirst words =
        count.toUInt8 :: chars.map UInt16.toUInt8 ++ List.replicate pad 0 := by
  obtain ⟨more, rfl⟩ : ∃ more, size = more + 1 := ⟨size - 1, by omega⟩
  have zeros : bytesOf lowFirst (List.replicate (more + 1) 0) =
      [] ++ 0 :: List.replicate (2 * more + 1) 0 := bytesOf_zeros lowFirst (more + 1)
  obtain ⟨once, number, now⟩ := put_half 0 0 count zeros rfl
  have reads : bytesOf lowFirst once = [count.toUInt8] ++ 0 :: List.replicate (2 * more) 0 := now
  obtain ⟨shared, first, both⟩ := put_half 0 1 (chars.headD 0) reads rfl
  have written : put 0 (half lowFirst 0 count ||| half lowFirst 1 (chars.headD 0))
      (List.replicate (more + 1) 0) = some shared := by
    rw [put_or]
    exact Option.bind_eq_some_iff.mpr ⟨once, number, first⟩
  rw [written]
  cases chars with
  | nil =>
    have left : pad = 2 * more + 1 := by simp at room; omega
    exact ⟨shared, rfl, by rw [both, left]; rfl⟩
  | cons c rest =>
    have left : 2 * more = rest.length + pad := by simp at room; omega
    have front : bytesOf lowFirst shared =
        [count.toUInt8, c.toUInt8] ++ List.replicate (rest.length + pad) 0 := by
      rw [both, left]
      rfl
    exact fill_zeros 1 0 rest front rfl

/-- The bytes of the number of the characters that a packed string begins with. -/
def counted (f : StringFlags) (n : Nat) : List UInt8 :=
  if f.countWord then halves (f.packing == .lowFirst) (UInt16.ofNat n)
  else if f.countByte then [UInt8.ofNat n]
  else []

theorem packed_of_room (f : StringFlags) (chars : List UInt16) {pad : Nat}
    (room : 2 * f.packedSize chars.length =
      (f.counted chars.length).length + chars.length + pad) :
    ∃ words, f.packed chars = some words ∧
      bytesOf (f.packing == .lowFirst) words =
        f.counted chars.length ++ chars.map UInt16.toUInt8 ++ List.replicate pad 0 := by
  let lowFirst := f.packing == .lowFirst
  let count := UInt16.ofNat chars.length
  unfold packed counted at *
  split_ifs at room ⊢ with word byte
  · rw [length_halves] at room
    exact fill_after_count lowFirst count chars room
  · have low : count.toUInt8 = UInt8.ofNat chars.length := UInt16.toUInt8_ofNat' ..
    rw [← low]
    exact fill_after_shared lowFirst count chars room
  · have zeros := bytesOf_zeros lowFirst (f.packedSize chars.length)
    rw [room, List.length_nil, Nat.zero_add] at zeros
    exact fill_zeros 0 0 chars zeros rfl

theorem eq_append_of_front {lowFirst : Bool} {words known : List UInt16} {more : List UInt8}
    (reads : bytesOf lowFirst words = bytesOf lowFirst known ++ more) :
    ∃ rest, words = known ++ rest ∧ bytesOf lowFirst rest = more := by
  induction known generalizing words with
  | nil => exact ⟨words, rfl, reads⟩
  | cons w known ih =>
    cases words with
    | nil =>
      have short := congrArg List.length reads
      simp at short
      omega
    | cons v words =>
      rw [bytesOf_cons, bytesOf_cons, List.append_assoc] at reads
      obtain ⟨first, later⟩ := List.append_inj reads (by simp)
      obtain ⟨rest, rfl, left⟩ := ih later
      exact ⟨rest, by rw [halves_inj first, List.cons_append], left⟩

theorem bytesOf_inj {lowFirst : Bool} {v w : List UInt16}
    (same : bytesOf lowFirst v = bytesOf lowFirst w) : v = w := by
  have whole : bytesOf lowFirst v = bytesOf lowFirst w ++ [] := by rw [same, List.append_nil]
  obtain ⟨rest, rfl, left⟩ := eq_append_of_front whole
  have empty : 2 * rest.length = 0 := by rw [← length_bytesOf lowFirst, left, List.length_nil]
  rw [List.eq_nil_of_length_eq_zero (by omega : rest.length = 0), List.append_nil]

theorem eq_append_of_back {lowFirst : Bool} {words known : List UInt16} {more : List UInt8}
    (reads : bytesOf lowFirst words = more ++ bytesOf lowFirst known) :
    ∃ rest, words = rest ++ known ∧ bytesOf lowFirst rest = more := by
  have size := congrArg List.length reads
  simp only [length_bytesOf, List.length_append] at size
  let cut := words.length - known.length
  have parts : bytesOf lowFirst (words.take cut) ++ bytesOf lowFirst (words.drop cut) =
      more ++ bytesOf lowFirst known := by
    rw [← bytesOf_append, List.take_append_drop, reads]
  obtain ⟨front, back⟩ := List.append_inj' parts (by simp [cut]; omega)
  exact ⟨words.take cut, by rw [← bytesOf_inj back, List.take_append_drop], front⟩

def markers (f : StringFlags) : Nat :=
  f.zeroByte.toNat + f.zeroWord.toNat + f.countByte.toNat + f.countWord.toNat

def Holds (f : StringFlags) (words : List UInt16) (bytes : List UInt8) : Prop :=
  ∃ pad ≤ 1, bytesOf (f.packing == .lowFirst) words = bytes ++ List.replicate pad 0

/-- What the words of characters with at most one marker are read as. -/
structure Stores (f : StringFlags) (words : List UInt16) (chars : List UInt8) : Prop where
  unmarked : f.markers = 0 → f.Holds words chars
  zeroByte : f.zeroByte = true → f.Holds words (chars ++ [0])
  countByte : f.countByte = true → f.Holds words (UInt8.ofNat chars.length :: chars)
  zeroWord : f.zeroWord = true → ∃ filled, words = filled ++ [0] ∧ f.Holds filled chars
  countWord : f.countWord = true →
    ∃ filled, words = UInt16.ofNat chars.length :: filled ∧ f.Holds filled chars

theorem markers_cases {f : StringFlags} (single : f.markers ≤ 1) :
    (f.zeroByte = false ∧ f.zeroWord = false ∧ f.countByte = false ∧ f.countWord = false) ∨
      (f.zeroByte = true ∧ f.zeroWord = false ∧ f.countByte = false ∧ f.countWord = false) ∨
      (f.zeroByte = false ∧ f.zeroWord = true ∧ f.countByte = false ∧ f.countWord = false) ∨
      (f.zeroByte = false ∧ f.zeroWord = false ∧ f.countByte = true ∧ f.countWord = false) ∨
      (f.zeroByte = false ∧ f.zeroWord = false ∧ f.countByte = false ∧ f.countWord = true) := by
  unfold markers at single
  revert single
  cases f.zeroByte <;> cases f.zeroWord <;> cases f.countByte <;> cases f.countWord <;> decide

theorem room_of_single {f : StringFlags} (n : Nat) (single : f.markers ≤ 1) :
    (f.counted n).length + n ≤ 2 * f.packedSize n := by
  rcases markers_cases single with ⟨z, x, a, p⟩ | ⟨z, x, a, p⟩ | ⟨z, x, a, p⟩ | ⟨z, x, a, p⟩ |
    ⟨z, x, a, p⟩ <;> simp [counted, packedSize, z, x, a, p] <;> omega

theorem packed_single (f : StringFlags) (chars : List UInt16) (single : f.markers ≤ 1) :
    ∃ words, f.packed chars = some words ∧ f.Stores words (chars.map UInt16.toUInt8) := by
  obtain ⟨pad, room⟩ := Nat.exists_eq_add_of_le (room_of_single chars.length single)
  obtain ⟨words, packed, reads⟩ := packed_of_room f chars room
  refine ⟨words, packed, ?_⟩
  rcases markers_cases single with ⟨z, x, a, p⟩ | ⟨z, x, a, p⟩ | ⟨z, x, a, p⟩ | ⟨z, x, a, p⟩ |
    ⟨z, x, a, p⟩ <;> simp only [counted, packedSize, z, x, a, p] at room reads
  · have holds : f.Holds words (chars.map UInt16.toUInt8) :=
      ⟨pad, by simp at room; omega, reads⟩
    exact ⟨fun _ => holds, by simp [z], by simp [a], by simp [x], by simp [p]⟩
  · obtain ⟨pad, rfl⟩ : ∃ more, pad = more + 1 := ⟨pad - 1, by simp at room; omega⟩
    have holds : f.Holds words (chars.map UInt16.toUInt8 ++ [0]) :=
      ⟨pad, by simp at room; omega, by simpa [List.replicate_succ] using reads⟩
    exact ⟨by simp [markers, z], fun _ => holds, by simp [a], by simp [x], by simp [p]⟩
  · obtain ⟨pad, rfl⟩ : ∃ more, pad = more + 2 := ⟨pad - 2, by simp at room; omega⟩
    have last : bytesOf (f.packing == .lowFirst) words = (chars.map UInt16.toUInt8 ++
        List.replicate pad 0) ++ bytesOf (f.packing == .lowFirst) [0] := by
      simpa [List.replicate_add, halves_zero] using reads
    obtain ⟨filled, rfl, holds⟩ := eq_append_of_back last
    have zeroWord : ∃ filled', filled ++ [0] = filled' ++ [0] ∧
        f.Holds filled' (chars.map UInt16.toUInt8) :=
      ⟨filled, rfl, pad, by simp at room; omega, holds⟩
    exact ⟨by simp [markers, x], by simp [z], by simp [a], fun _ => zeroWord, by simp [p]⟩
  · have holds : f.Holds words (UInt8.ofNat (chars.map UInt16.toUInt8).length ::
        chars.map UInt16.toUInt8) :=
      ⟨pad, by simp at room; omega, by simpa using reads⟩
    exact ⟨by simp [markers, a], by simp [z], fun _ => holds, by simp [x], by simp [p]⟩
  · have first : bytesOf (f.packing == .lowFirst) words =
        bytesOf (f.packing == .lowFirst) [UInt16.ofNat chars.length] ++
          (chars.map UInt16.toUInt8 ++ List.replicate pad 0) := by
      simpa using reads
    obtain ⟨filled, rfl, holds⟩ := eq_append_of_front first
    exact ⟨by simp [markers, p], by simp [z], by simp [a], by simp [x],
      fun _ => ⟨filled, by simp, pad, by simp at room; omega, holds⟩⟩

/-- A packed string with at most one marker fits the room computed for it, and its words are read
back as the low bytes of its characters with that marker. -/
theorem packed_strings_read_back (f : StringFlags) (chars : List Int64) (packed : f.isPacked = true)
    (single : f.markers ≤ 1) :
    ∃ words, f.encode (chars.map lowWord) = some words ∧
      f.Stores words (chars.map fun c => UInt8.ofInt c.toInt) := by
  obtain ⟨words, filled, stores⟩ := packed_single f (chars.map lowWord) single
  have low : (chars.map lowWord).map UInt16.toUInt8 = chars.map fun c => UInt8.ofInt c.toInt := by
    simp [toUInt8_lowWord]
  rw [low] at stores
  exact ⟨words, by rw [encode, packed]; exact filled, stores⟩

-- An odd number of characters, two of which are no bytes, before a zero word.
theorem packed_strings_read_back_odd :
    let f : StringFlags := { packing := .lowFirst, zeroWord := true }
    f.isPacked = true ∧ f.markers ≤ 1 ∧
      f.encode ([-1, 300, 65].map lowWord) = some [0x2CFF, 0x0041, 0] ∧
      f.Stores [0x2CFF, 0x0041, 0] [255, 44, 65] := by
  intro f
  have packed : f.isPacked = true := rfl
  have single : f.markers ≤ 1 := by decide
  have words : f.encode ([-1, 300, 65].map lowWord) = some [0x2CFF, 0x0041, 0] := by decide
  obtain ⟨_, encoded, stores⟩ := packed_strings_read_back f [-1, 300, 65] packed single
  cases words.symm.trans encoded
  exact ⟨packed, single, words, stores⟩

end StringFlags

end WordAsm
