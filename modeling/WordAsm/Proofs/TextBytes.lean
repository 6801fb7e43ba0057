import WordAsm.Text.Basic

/-!
Texts and their bytes. Main statements: bytes that are read as a text are the bytes of that text,
whether they spell characters or not, and a text is read from its bytes.
-/
namespace WordAsm.Text

@[simp] theorem encode_append (s t : String) : encode (s ++ t) = encode s ++ encode t := by
  simp [encode, String.toList_append]

@[simp] theorem size_append (s t : String) : size (s ++ t) = size s + size t := by simp [size]

theorem encode_ofList (cs : List Char) : encode (String.ofList cs) = cs.flatMap encodeChar := by
  rw [encode, String.toList_ofList]

theorem encodeChar_plain {c : Char} (plain : isStray c = false) :
    encodeChar c = String.utf8EncodeChar c := by
  rw [encodeChar, plain]
  rfl

theorem encodeChar_stray {b : UInt8} (high : 0x80 ≤ b.toNat) : encodeChar (stray b) = [b] := by
  have tried : ∀ n < 256, 0x80 ≤ n → encodeChar (stray (UInt8.ofNat n)) = [UInt8.ofNat n] := by
    decide +kernel
  have found := tried b.toNat b.toNat_lt high
  rwa [UInt8.ofNat_toNat] at found

theorem utf8EncodeChar_byte {b : UInt8} (low : b.toNat < 0x80) :
    String.utf8EncodeChar (Char.ofNat b.toNat) = [b] ∧ isStray (Char.ofNat b.toNat) = false := by
  have tried : ∀ n < 0x80, String.utf8EncodeChar (Char.ofNat n) = [UInt8.ofNat n] ∧
      isStray (Char.ofNat n) = false := by decide +kernel
  have found := tried b.toNat low
  rwa [UInt8.ofNat_toNat] at found

theorem charAt_ok {bytes : List UInt8} {c : Char} (found : charAt? bytes = some c) :
    isStray c = false ∧ ∃ rest, bytes = String.utf8EncodeChar c ++ rest := by
  obtain ⟨read, plain⟩ := Option.filter_eq_some_iff.1 found
  obtain ⟨rest, begins⟩ := ByteArray.exists_of_utf8DecodeChar?_eq_some read
  have front : bytes.take 4 = String.utf8EncodeChar c ++ rest.data.toList := by
    simpa using congrArg (fun b : ByteArray => b.data.toList) begins
  refine ⟨by simpa using plain, rest.data.toList ++ bytes.drop 4, ?_⟩
  rw [← List.append_assoc, ← front, List.take_append_drop]

theorem charAt_encoded {c : Char} (plain : isStray c = false) (rest : List UInt8) :
    charAt? (String.utf8EncodeChar c ++ rest) = some c := by
  have short : (String.utf8EncodeChar c).length ≤ 4 := by
    rw [String.length_utf8EncodeChar]
    exact c.utf8Size_le_four
  rw [charAt?, List.take_append, List.take_of_length_le short, List.toByteArray_append,
    ByteArray.utf8DecodeChar?_utf8EncodeChar_append]
  simp [plain]

theorem decodeFrom_append {front : List UInt8} {skip : Nat} (length : front.length = skip)
    (rest : List UInt8) : decodeFrom skip (front ++ rest) = decodeFrom 0 rest := by
  induction front generalizing skip with
  | nil =>
    subst length
    rfl
  | cons b front ih =>
    subst length
    exact ih rfl

theorem encode_decodeFrom (skip : Nat) (bytes : List UInt8) :
    (decodeFrom skip bytes).flatMap encodeChar = bytes.drop skip := by
  induction bytes generalizing skip with
  | nil => simp [decodeFrom]
  | cons b rest ih =>
    cases skip with
    | succ k => exact ih k
    | zero =>
      rw [decodeFrom]
      cases found : charAt? (b :: rest) with
      | some c =>
        obtain ⟨plain, later, begins⟩ := charAt_ok found
        have after : rest.drop (c.utf8Size - 1) = later := by
          obtain ⟨n, size⟩ : ∃ n, c.utf8Size = n + 1 :=
            Nat.exists_eq_succ_of_ne_zero (Nat.ne_of_gt c.utf8Size_pos)
          have dropped := congrArg (List.drop c.utf8Size) begins
          rw [List.drop_left' (String.length_utf8EncodeChar c), size] at dropped
          rw [size]
          exact dropped
        rw [List.flatMap_cons, ih, encodeChar_plain plain, after, ← begins]
        rfl
      | none =>
        -- a byte below 0x80 is a character
        have high : 0x80 ≤ b.toNat := by
          apply Nat.le_of_not_lt
          intro low
          obtain ⟨single, plain⟩ := utf8EncodeChar_byte low
          have read := charAt_encoded plain rest
          rw [single, List.singleton_append, found] at read
          cases read
        rw [List.flatMap_cons, ih, encodeChar_stray high]
        rfl

/-- The bytes of a file are those of the text that is read from it. -/
theorem encode_decode (bytes : List UInt8) : encode (decode bytes) = bytes := by
  rw [decode, encode_ofList, encode_decodeFrom, List.drop_zero]

theorem size_decode (bytes : List UInt8) : size (decode bytes) = bytes.length := by
  rw [size, encode_decode]

theorem decodeFrom_char {c : Char} (plain : isStray c = false) (rest : List UInt8) :
    decodeFrom 0 (encodeChar c ++ rest) = c :: decodeFrom 0 rest := by
  have found := charAt_encoded plain rest
  rw [encodeChar_plain plain]
  cases spelled : String.utf8EncodeChar c with
  | nil => exact absurd spelled String.utf8EncodeChar_ne_nil
  | cons b front =>
    have length : front.length = c.utf8Size - 1 := by
      rw [← String.length_utf8EncodeChar, spelled]
      rfl
    rw [spelled, List.cons_append] at found
    rw [List.cons_append, decodeFrom, found]
    simp only
    rw [decodeFrom_append length]

theorem decodeFrom_chars {cs : List Char} (plain : ∀ c ∈ cs, isStray c = false) :
    decodeFrom 0 (cs.flatMap encodeChar) = cs := by
  induction cs with
  | nil => rfl
  | cons c cs ih =>
    have here := plain c List.mem_cons_self
    have later := ih fun c member => plain c (List.mem_cons_of_mem _ member)
    rw [List.flatMap_cons, decodeFrom_char here, later]

/-- Well-formed UTF-8 is read as the characters that it spells. -/
theorem decode_encode {s : String} (plain : ∀ c ∈ s.toList, isStray c = false) :
    decode (encode s) = s := by
  rw [decode, encode, decodeFrom_chars plain, String.ofList_toList]

-- The bytes of a letter and of a character that is set apart, and two that belong to no character.
example : decode [0xC3, 0xA9, 0xF4, 0x8F, 0xBF, 0xBF, 0xC3, 0x28] =
    String.ofList ([Char.ofNat 0xE9] ++ [0xF4, 0x8F, 0xBF, 0xBF, 0xC3].map stray ++ ['(']) := by
  decide +kernel

end WordAsm.Text
