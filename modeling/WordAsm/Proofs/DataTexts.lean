import WordAsm.Image.Disassembly
import WordAsm.Proofs.ArgumentTexts

/-!
The lines of data. Numerals and quoted strings are read as items that give the same words in every
pass, and the lines of an image's data give the data back.
-/
namespace WordAsm

namespace DataItem

def constant? : DataItem → Option (List UInt16)
  | string words _ _ => some words
  | value (.number n _) _ _ => some [lowWord n]
  | value _ _ _ => none

theorem emit_constant {item : DataItem} {words : List UInt16}
    (constant : item.constant? = some words)
    (ctx : Context) (line : Line) :
    ∃ cells left, item.emit ctx line = (.ok cells, left) ∧ cells.map Cell.value = words ∧
      left.constant? = some words := by
  cases item with
  | string words' isPacked raw =>
    cases constant
    exact ⟨_, _, rfl, by simp [Function.comp_def], rfl⟩
  | value tree last raw =>
    cases tree with
    | number n g =>
      cases constant
      exact ⟨_, _, rfl, rfl, rfl⟩
    | _ => cases constant

theorem emitAll_constant {items : List DataItem} {words : List (List UInt16)}
    (constant : items.mapM constant? = some words) (ctx : Context) (line : Line) :
    ∃ cells left, emitAll ctx line items = (.ok cells, left) ∧
      cells.map Cell.value = words.flatten ∧ left.mapM constant? = some words := by
  induction items generalizing words with
  | nil =>
    cases constant
    exact ⟨[], [], rfl, rfl, rfl⟩
  | cons item rest ih =>
    rw [List.mapM_cons] at constant
    obtain ⟨first, here, constant⟩ := Option.bind_eq_some_iff.1 constant
    obtain ⟨later, there, constant⟩ := Option.bind_eq_some_iff.1 constant
    cases constant
    obtain ⟨cells, left, emitted, values, again⟩ := emit_constant here ctx line
    obtain ⟨cells', left', emitted', values', again'⟩ := ih there
    refine ⟨cells ++ cells', left :: left', ?_, ?_, ?_⟩
    · simp only [emitAll, emitted, emitted']
    · rw [List.map_append, values, values', List.flatten_cons]
    · rw [List.mapM_cons, again, again']
      rfl

end DataItem

namespace Data

def Gives (words : List UInt16) (d : Data) : Prop :=
  d.isBytes = false ∧ ∃ parts, d.items.mapM DataItem.constant? = some parts ∧ parts.flatten = words

theorem emit_gives {d : Data} {words : List UInt16} (gives : d.Gives words) (ctx : Context)
    (line : Line) : ∃ left, d.emit ctx line = (.ok (some words), left) ∧ left.Gives words := by
  obtain ⟨whole, parts, constant, rfl⟩ := gives
  obtain ⟨cells, left, emitted, values, again⟩ := DataItem.emitAll_constant constant ctx line
  refine ⟨{ d with items := left }, ?_, whole, parts, again, rfl⟩
  simp only [emit, emitted, Data.words, whole, Bool.false_eq_true, if_false, values,
    gathered_getD]

end Data

section

variable (s : Symbols) (line : Line)

theorem DataItem.read_literal (w : UInt16) :
    ∃ item, DataItem.read s line (Word.literal w) = .ok item ∧ item.constant? = some [w] := by
  have plain := Text.isPlain_literal w
  have unquoted : (Word.literal w).toList.contains '"' = false := by
    cases found : (Word.literal w).toList.contains '"' with
    | false => rfl
    | true => exact absurd (plain.word '"' (by simpa using found)) (by decide)
  refine ⟨.value (.number (Int64.ofNat w.toNat) false) (.number (Int64.ofNat w.toNat) false)
    (Word.literal w), ?_, ?_⟩
  · rw [DataItem.read, unquoted, s.build_numeral line plain (Literal.number_literal w)]
    rfl
  · simp only [DataItem.constant?, Operand.lowWord_toNat]

theorem DataItem.readAll_literals (ws : List UInt16) :
    ∃ items, DataItem.readAll s line (ws.map Word.literal) = .ok items ∧
      items.mapM DataItem.constant? = some (ws.map ([·])) := by
  induction ws with
  | nil => exact ⟨[], rfl, rfl⟩
  | cons w ws ih =>
    obtain ⟨item, read, constant⟩ := DataItem.read_literal s line w
    obtain ⟨items, reads, constants⟩ := ih
    refine ⟨item :: items, ?_, ?_⟩
    · rw [List.map_cons, DataItem.readAll, read, reads]
      rfl
    · rw [List.mapM_cons, constant, constants]
      rfl

end

namespace ImageData

theorem printable_bound {w : UInt16} (printable : isPrintable w = true) : w.toNat < 128 := by
  simp only [isPrintable, Bool.and_eq_true, decide_eq_true_eq] at printable
  exact Nat.lt_of_le_of_lt (UInt16.le_iff_toNat_le.1 printable.2) (by decide)

theorem bytes_escape {w : UInt16} (printable : isPrintable w = true) (rest : List Char) :
    StringLiteral.bytes false (escape w ++ rest) =
      UInt8.ofNat w.toNat :: StringLiteral.bytes false rest := by
  have tried : ∀ n < 128, isPrintable (UInt16.ofNat n) = true →
      (escape (UInt16.ofNat n) = [Char.ofNat n] ∧ (Char.ofNat n == '\\') = false ∧
        Text.encodeChar (Char.ofNat n) = [UInt8.ofNat n]) ∨
      (escape (UInt16.ofNat n) = ['\\', Char.ofNat n] ∧
        StringLiteral.escaped (Char.ofNat n) = [UInt8.ofNat n]) := by decide +kernel
  have found := tried w.toNat (printable_bound printable)
  rw [UInt16.ofNat_toNat] at found
  rcases found printable with ⟨written, other, byte⟩ | ⟨written, byte⟩
  · rw [written]
    simp only [List.cons_append, List.nil_append, StringLiteral.bytes, other, byte,
      Bool.false_eq_true, if_false]
  · rw [written]
    simp only [List.cons_append, List.nil_append, StringLiteral.bytes, beq_self_eq_true, byte,
      Bool.false_eq_true, if_true, if_false]

theorem bytes_chars {chars : List UInt16} (printable : ∀ w ∈ chars, isPrintable w = true) :
    StringLiteral.bytes false (chars.flatMap escape) = chars.map fun w => UInt8.ofNat w.toNat := by
  induction chars with
  | nil => rfl
  | cons w chars ih =>
    rw [List.flatMap_cons, bytes_escape (printable w (by simp)), List.map_cons,
      ih (fun v member => printable v (by simp [member]))]

theorem split_quoted {flags : List Char} (unquoted : ∀ c ∈ flags, c ≠ '"') (body : List Char) :
    StringLiteral.split? (flags ++ '"' :: body ++ ['"']) = some (flags, body) := by
  have before : (flags ++ '"' :: body ++ ['"']).takeWhile (· != '"') = flags := by
    rw [List.append_assoc, List.takeWhile_append_of_pos (by simpa using unquoted)]
    simp
  have after : (flags ++ '"' :: body ++ ['"']).drop (flags.length + 1) = body ++ ['"'] := by
    simp [List.append_assoc]
  simp only [StringLiteral.split?, before, after]
  simp

def flags (isZero : Bool) : List Char := if isZero then ['z'] else []

/-- A string as it is written. -/
def quoted (chars : List UInt16) (isZero : Bool) : String :=
  (if isZero then "z" else "") ++ String.ofList ('"' :: chars.flatMap escape ++ ['"'])

theorem toList_quoted (chars : List UInt16) (isZero : Bool) :
    (quoted chars isZero).toList = flags isZero ++ '"' :: (chars.flatMap escape ++ ['"']) := by
  rw [quoted, String.toList_append, String.toList_ofList, List.cons_append]
  cases isZero <;> rfl

theorem read_string (value : String → Except Fault Int64) {chars : List UInt16}
    (printable : ∀ w ∈ chars, isPrintable w = true) (isZero : Bool) :
    StringLiteral.read value (quoted chars isZero) =
      .ok (chars ++ if isZero then [0] else [], false) := by
  have unquoted : ∀ c ∈ flags isZero, c ≠ '"' := by cases isZero <;> decide
  have values : (chars.map fun w => UInt8.ofNat w.toNat).map
      (fun b => lowWord (Int64.ofNat b.toNat ||| 0)) = chars := by
    rw [List.map_map]
    refine (List.map_congr_left ?_).trans (List.map_id' chars)
    intro w member
    have bound := printable_bound (printable w member)
    have byte : (UInt8.ofNat w.toNat).toNat = w.toNat := by
      rw [UInt8.toNat_ofNat']
      omega
    rw [Function.comp_apply, byte, Int64.or_zero, Operand.lowWord_toNat]
  rw [StringLiteral.read, toList_quoted, ← List.cons_append, ← List.append_assoc,
    split_quoted unquoted]
  cases isZero with
  | false =>
    have read : StringFlags.read value (flags false) = .ok {} := rfl
    simp only [read, bytes_chars printable, values, StringFlags.encode, StringFlags.isPacked,
      StringFlags.unpacked]
    simp
  | true =>
    have read : StringFlags.read value (flags true) = .ok { zeroByte := true } := rfl
    simp only [read, bytes_chars printable, values, StringFlags.encode, StringFlags.isPacked,
      StringFlags.unpacked]
    simp

theorem newline_escape {w : UInt16} (printable : isPrintable w = true) : '\n' ∉ escape w := by
  have tried : ∀ n < 128, isPrintable (UInt16.ofNat n) = true →
      '\n' ∉ escape (UInt16.ofNat n) := by decide +kernel
  have found := tried w.toNat (printable_bound printable)
  rw [UInt16.ofNat_toNat] at found
  exact found printable

/-- The words that a segment stands for. -/
def Segment.data : Segment → List UInt16
  | words ws => ws
  | string chars isZero => chars ++ if isZero then [0] else []

theorem data_flush (pending : List UInt16) :
    (flush pending).flatMap Segment.data = pending.reverse := by
  unfold flush
  split
  · rename_i none
    rw [List.isEmpty_iff.1 none]
    rfl
  · exact List.flatMap_singleton _ _

theorem data_segments (pending data : List UInt16) :
    (segments pending data).flatMap Segment.data = pending.reverse ++ data := by
  fun_induction segments pending data with
  | case1 pending => rw [data_flush, List.append_nil]
  | case2 pending w rest run long after isZero ih =>
    have parts : run ++ after = w :: rest := by
      have dropped : after = (w :: rest).drop run.length := by
        obtain ⟨n, length⟩ : ∃ n, run.length = n + 1 :=
          Nat.exists_eq_succ_of_ne_zero (Nat.ne_of_gt (Nat.lt_of_lt_of_le (by decide) long))
        simp only [after, length, List.drop_succ_cons, Nat.add_sub_cancel]
      rw [dropped]
      exact List.prefix_iff_eq_append.1 (List.takeWhile_prefix _)
    have zero : (if isZero then [0] else []) ++ (if isZero then after.drop 1 else after) =
        after := by
      split
      · rename_i found
        obtain ⟨tail, begins⟩ := List.head?_eq_some_iff.1 (eq_of_beq found)
        rw [begins]
        rfl
      · rfl
    simp only [dite_eq_ite] at ih
    rw [List.flatMap_append, data_flush, List.flatMap_cons, ih, Segment.data, List.reverse_nil,
      List.nil_append, List.append_assoc, zero, parts]
  | case3 pending w rest run short ih =>
    rw [ih, List.reverse_cons, List.append_assoc]
    rfl

theorem string_segments {pending data chars : List UInt16} {isZero : Bool}
    (member : .string chars isZero ∈ segments pending data) :
    (∀ w ∈ chars, isPrintable w = true) ∧ minString ≤ chars.length := by
  have flushed (pending : List UInt16) : .string chars isZero ∉ flush pending := by
    unfold flush
    split <;> simp
  fun_induction segments pending data with
  | case1 pending => exact absurd member (flushed pending)
  | case2 pending w rest run long after zero ih =>
    rcases List.mem_append.1 member with before | member
    · exact absurd before (flushed pending)
    · rcases List.mem_cons.1 member with same | later
      · injection same with chosen
        rw [chosen]
        exact ⟨fun w inside => List.all_eq_true.1 List.all_takeWhile w inside, long⟩
      · exact ih later
  | case3 pending w rest run short ih => exact ih member

end ImageData

end WordAsm
