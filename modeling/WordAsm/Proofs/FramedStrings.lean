import WordAsm.Proofs.PackedStrings

/-!
Packed strings with a number in front and a terminator behind. The room computed for a string counts
one of its markers at most, so the number and the characters fill it but for one byte: the
terminator stands there only if it is this byte, and characters after a whole word with their number
may not fit.
-/
namespace WordAsm.StringFlags

theorem fill_short {lowFirst : Bool} (start position : Nat) {words chars : List UInt16}
    (given : chars ≠ []) (short : 2 * words.length < 2 * start + position + chars.length) :
    fill lowFirst start position chars words = none := by
  induction chars generalizing position words with
  | nil => exact absurd rfl given
  | cons c rest ih =>
    rw [List.length_cons] at short
    by_cases inside : position / 2 + start < words.length
    · have later : rest ≠ [] := by
        rintro rfl
        rw [List.length_nil] at short
        omega
      rw [fill, put, if_pos inside, Option.bind_some]
      apply ih (position + 1) later
      rw [List.length_modify]
      omega
    · rw [fill, put, if_neg inside]
      rfl

def IsCramped (f : StringFlags) (n : Nat) : Prop :=
  f.countWord = true ∧ f.zeroByte = true ∧ n % 2 = 1

theorem packed_cramped {f : StringFlags} {chars : List UInt16}
    (cramped : f.IsCramped chars.length) : f.packed chars = none := by
  obtain ⟨word, zero, odd⟩ := cramped
  have given : chars ≠ [] := by
    rintro rfl
    cases odd
  have size : f.packedSize chars.length = (chars.length + 1 + 1) / 2 := by
    simp only [packedSize, zero, Bool.true_or, if_true]
    rfl
  have short : 2 * f.packedSize chars.length < 2 * 1 + 0 + chars.length := by omega
  have first : put 0 (UInt16.ofNat chars.length) (List.replicate (f.packedSize chars.length) 0) =
      some ((List.replicate (f.packedSize chars.length) 0).modify 0
        (· ||| UInt16.ofNat chars.length)) := by
    rw [put, if_pos (by rw [List.length_replicate]; omega)]
  simp only [packed, word, if_true, first, Option.bind_some]
  apply fill_short 1 0 given
  rwa [List.length_modify, List.length_replicate]

section

variable {f : StringFlags} (count : f.countByte ≠ f.countWord) (zero : f.zeroByte ≠ f.zeroWord)

include count

theorem countByte_of_not_countWord (word : f.countWord = false) : f.countByte = true := by
  simpa [word] using count

theorem length_counted (n : Nat) :
    (f.counted n).length = if f.countWord = true then 2 else 1 := by
  unfold counted
  split_ifs with word byte
  · exact length_halves ..
  · rfl
  · exact absurd (countByte_of_not_countWord count (by simpa using word)) byte

include zero

theorem room_of_framed {n : Nat} (fits : ¬ f.IsCramped n) :
    2 * f.packedSize n = (f.counted n).length + n + ((f.counted n).length + n) % 2 := by
  rw [length_counted count]
  unfold IsCramped at fits
  unfold packedSize
  revert count zero fits
  cases f.countByte <;> cases f.countWord <;> cases f.zeroByte <;> cases f.zeroWord <;>
    simp <;> omega

theorem packed_framed {chars : List UInt16} (fits : ¬ f.IsCramped chars.length) :
    ∃ words, f.packed chars = some words ∧
      bytesOf (f.packing == .lowFirst) words =
        f.counted chars.length ++ chars.map UInt16.toUInt8 ++
          List.replicate (((f.counted chars.length).length + chars.length) % 2) 0 :=
  packed_of_room f chars (room_of_framed count zero fits)

end

/-- The words hold the number of the characters, the characters, and after the last of them the
terminator. -/
structure Keeps (f : StringFlags) (words : List UInt16) (chars : List UInt8) : Prop where
  zeroByte : f.zeroByte = true →
    f.counted chars.length ++ chars ++ [0] <+: bytesOf (f.packing == .lowFirst) words
  zeroWord : f.zeroWord = true → ∃ filled rest, words = filled ++ 0 :: rest ∧
    f.counted chars.length ++ chars <+: bytesOf (f.packing == .lowFirst) filled

theorem keeps_iff {f : StringFlags} (count : f.countByte ≠ f.countWord)
    (zero : f.zeroByte ≠ f.zeroWord) {words : List UInt16} {chars : List UInt8}
    (fits : ¬ f.IsCramped chars.length)
    (reads : bytesOf (f.packing == .lowFirst) words = f.counted chars.length ++ chars ++
      List.replicate (((f.counted chars.length).length + chars.length) % 2) 0) :
    f.Keeps words chars ↔ f.countByte = true ∧ f.zeroByte = true ∧ chars.length % 2 = 0 := by
  have number := length_counted count chars.length
  have size := congrArg List.length reads
  simp only [length_bytesOf, List.length_append, List.length_replicate] at size
  constructor
  · intro keeps
    have byte : f.zeroByte = true := by
      by_contra none
      obtain ⟨filled, rest, rfl, front⟩ := keeps.zeroWord (by simpa [none] using zero)
      have inside := front.length_le
      simp only [length_bytesOf, List.length_append, List.length_cons] at inside size
      omega
    have inside := (keeps.zeroByte byte).length_le
    simp only [length_bytesOf, List.length_append, List.length_singleton] at inside
    cases word : f.countWord with
    | true =>
      have even : chars.length % 2 = 0 := by
        by_contra odd
        exact fits ⟨word, byte, by omega⟩
      simp only [word, if_true] at number
      omega
    | false =>
      simp only [word, Bool.false_eq_true, if_false] at number
      exact ⟨countByte_of_not_countWord count word, byte, by omega⟩
  · rintro ⟨first, byte, even⟩
    have word : f.countWord = false := by simpa [first] using count
    have other : f.zeroWord = false := by simpa [byte] using zero
    simp only [word, Bool.false_eq_true, if_false] at number
    have left : ((f.counted chars.length).length + chars.length) % 2 = 1 := by omega
    refine ⟨fun _ => ⟨[], ?_⟩, by simp [other]⟩
    rw [List.append_nil, reads, left, List.replicate_one]

/-- A packed string with a number and a terminator does not fit its room if an odd number of
characters stands between a whole word and a zero byte. Otherwise its words hold the number and the
characters, and the terminator only if both markers are bytes and the characters are even in
number. -/
theorem terminators_need_a_free_byte (f : StringFlags) (chars : List Int64)
    (packed : f.isPacked = true) (count : f.countByte ≠ f.countWord)
    (zero : f.zeroByte ≠ f.zeroWord) :
    (f.encode (chars.map lowWord) = none ↔
      f.countWord = true ∧ f.zeroByte = true ∧ chars.length % 2 = 1) ∧
    ∀ words, f.encode (chars.map lowWord) = some words →
      bytesOf (f.packing == .lowFirst) words =
        f.counted chars.length ++ (chars.map fun c => UInt8.ofInt c.toInt) ++
          List.replicate (((f.counted chars.length).length + chars.length) % 2) 0 ∧
      (f.Keeps words (chars.map fun c => UInt8.ofInt c.toInt) ↔
        f.countByte = true ∧ f.zeroByte = true ∧ chars.length % 2 = 0) := by
  have length : (chars.map lowWord).length = chars.length := List.length_map _
  have low : (chars.map lowWord).map UInt16.toUInt8 = chars.map fun c => UInt8.ofInt c.toInt := by
    simp [toUInt8_lowWord]
  have encoded : f.encode (chars.map lowWord) = f.packed (chars.map lowWord) := if_pos packed
  rw [encoded]
  by_cases cramped : f.IsCramped chars.length
  · have none := packed_cramped (length.symm ▸ cramped)
    refine ⟨⟨fun _ => cramped, fun _ => none⟩, ?_⟩
    intro words some
    cases none.symm.trans some
  · obtain ⟨words, filled, reads⟩ := packed_framed count zero (length.symm ▸ cramped)
    rw [low, length] at reads
    refine ⟨⟨fun none => ?_, fun within => absurd within cramped⟩, ?_⟩
    · cases none.symm.trans filled
    · intro words' some
      cases filled.symm.trans some
      have kept := @keeps_iff f count zero words (chars.map fun c => UInt8.ofInt c.toInt)
      rw [List.length_map] at kept
      exact ⟨reads, kept cramped reads⟩

-- Three characters after a byte with their number fill two words, and no zero follows.
theorem terminators_need_a_free_byte_odd :
    let f : StringFlags := { packing := .highFirst, countByte := true, zeroByte := true }
    f.isPacked = true ∧ f.countByte ≠ f.countWord ∧ f.zeroByte ≠ f.zeroWord ∧
      f.encode ([65, 66, 67].map lowWord) = some [0x0341, 0x4243] ∧
      ¬ f.Keeps [0x0341, 0x4243] [65, 66, 67] := by
  intro f
  have words : f.encode ([65, 66, 67].map lowWord) = some [0x0341, 0x4243] := by decide
  have all := terminators_need_a_free_byte f [65, 66, 67] rfl (by decide) (by decide)
  refine ⟨rfl, by decide, by decide, words, ?_⟩
  intro keeps
  have even := ((all.2 _ words).2.1 keeps).2.2
  cases even

-- With a word for the number and a byte for the zero, three characters do not even fit.
theorem terminators_are_lost :
    ¬ ∀ (f : StringFlags) (chars : List Int64), f.isPacked = true → f.countByte ≠ f.countWord →
      f.zeroByte ≠ f.zeroWord → ∃ words, f.encode (chars.map lowWord) = some words ∧
        f.Keeps words (chars.map fun c => UInt8.ofInt c.toInt) := by
  intro all
  obtain ⟨words, encoded, -⟩ := all
    { packing := .highFirst, countWord := true, zeroByte := true } [65, 66, 67] rfl (by decide)
    (by decide)
  have none : encode { packing := .highFirst, countWord := true, zeroByte := true }
      ([65, 66, 67].map lowWord) = none := by decide
  cases none.symm.trans encoded

end WordAsm.StringFlags
