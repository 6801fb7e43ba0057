import WordAsm.Proofs.SignedNumerals
import WordAsm.Proofs.SteadySources

/-!
Data as source text and back. Its lines give one part of the data after the other, so that the text
assembles to the data.
-/
namespace WordAsm

namespace ImageData

open Disassembly (stringName)
open Tokenizer (IsToken Mode Scan Writes isSolid_of_plain)

/-! Rows. -/

theorem flatten_rows (ws : List UInt16) : (rows ws).flatten = ws := by
  fun_induction rows ws with
  | case1 => rfl
  | case2 w rest ih => rw [List.flatten_cons, ih, List.cons_append, List.take_append_drop]

theorem length_rows (ws : List UInt16) : (rows ws).length ≤ ws.length := by
  fun_induction rows ws with
  | case1 => exact Nat.le_refl _
  | case2 w rest ih =>
    rw [List.length_drop] at ih
    simp only [List.length_cons]
    omega

theorem ne_nil_rows {ws row : List UInt16} (member : row ∈ rows ws) : row ≠ [] := by
  fun_induction rows ws with
  | case1 => cases member
  | case2 w rest ih =>
    rcases List.mem_cons.1 member with rfl | later
    · exact List.cons_ne_nil _ _
    · exact ih later

/-! Lines. -/

theorem writes_sourceLine {mnemonic : String} (token : IsToken mnemonic.toList)
    {operands : List String} (given : operands ≠ [])
    (each : ∀ operand ∈ operands, IsToken operand.toList) {comment : String}
    (broken : Scan.IsBreak (comment.toList ++ ['\n'])) :
    Writes [mnemonic :: operands]
      (sourceLine mnemonic (", ".intercalate operands ++ comment)).toList := by
  have gap : List.replicate (8 - mnemonic.toList.length) ' ' ++ [' '] =
      ' ' :: List.replicate (8 - mnemonic.toList.length) ' ' := by
    rw [← List.replicate_succ', List.replicate_succ]
  have chars : (sourceLine mnemonic (", ".intercalate operands ++ comment)).toList =
      List.replicate 4 ' ' ++ (mnemonic.toList ++
        (List.replicate (8 - mnemonic.toList.length) ' ' ++ [' '] ++
          ((", ".intercalate operands).toList ++ (comment.toList ++ ['\n'])))) := by
    simp only [sourceLine, Text.padRight, String.toList_append, String.toList_ofList,
      List.append_assoc]
    rfl
  rw [chars, gap]
  exact Writes.statement token given each broken 4 _

theorem writes_uncommented {mnemonic : String} (token : IsToken mnemonic.toList)
    {operands : List String} (given : operands ≠ [])
    (each : ∀ operand ∈ operands, IsToken operand.toList) :
    Writes [mnemonic :: operands] (sourceLine mnemonic (", ".intercalate operands)).toList := by
  have written := @writes_sourceLine mnemonic token operands given each "" Scan.isBreak_newline
  rwa [String.append_empty] at written

theorem quoted_escape (w : UInt16) (cs : List Char) :
    (Mode.quoted false).within (escape w ++ cs) = (Mode.quoted false).within cs ∧
      (escape w ++ cs).foldl Mode.next (.quoted false) = cs.foldl Mode.next (.quoted false) := by
  unfold escape
  dsimp only
  split
  · exact ⟨rfl, rfl⟩
  · rename_i other
    rw [Bool.or_eq_true, not_or, Bool.not_eq_true, Bool.not_eq_true] at other
    have next : (Mode.quoted false).next (Char.ofNat w.toNat) = .quoted false := by
      simp only [Mode.next, other.1, other.2, Bool.false_eq_true, if_false]
    rw [List.singleton_append, Mode.within, List.foldl_cons, next]
    exact ⟨rfl, rfl⟩

theorem quoted_chars (chars : List UInt16) :
    (Mode.quoted false).within (chars.flatMap escape ++ ['"']) = true ∧
      (chars.flatMap escape ++ ['"']).foldl Mode.next (.quoted false) = .plain := by
  induction chars with
  | nil => exact ⟨rfl, rfl⟩
  | cons w chars ih =>
    have first := quoted_escape w (chars.flatMap escape ++ ['"'])
    rw [List.flatMap_cons, List.append_assoc, first.1, first.2]
    exact ih

theorem isToken_quoted {chars : List UInt16} (printable : ∀ w ∈ chars, isPrintable w = true)
    (isZero : Bool) : IsToken (quoted chars isZero).toList := by
  rw [toList_quoted]
  refine Tokenizer.isToken_quoted ?_ (quoted_chars chars).1 (quoted_chars chars).2 ?_
  · cases isZero with
    | false => exact fun given => absurd rfl given
    | true => exact fun _ => isSolid_of_plain ⟨by decide, by decide⟩
  · intro member
    obtain ⟨w, inside, member⟩ := List.mem_flatMap.1 member
    exact newline_escape (printable w inside) member

theorem read_quoted (s : Symbols) (line : Line) {chars : List UInt16}
    (printable : ∀ w ∈ chars, isPrintable w = true) (isZero : Bool) :
    ∃ item, DataItem.read s line (quoted chars isZero) = .ok item ∧
      item.constant? = some (Segment.string chars isZero).data := by
  have marked : (quoted chars isZero).toList.contains '"' = true := by
    rw [toList_quoted]
    simp
  refine ⟨.string _ false (quoted chars isZero), ?_, rfl⟩
  rw [DataItem.read, marked, read_string _ printable]
  rfl

/-! Entries. -/

/-- A line of words. -/
def rowEntry (row : List UInt16) : Entry := .statement "DAT" (row.map Word.literal) row

def stringEntry (chars : List UInt16) (isZero : Bool) : Entry :=
  .statement "DAT" [quoted chars isZero] (Segment.string chars isZero).data

/-- The lines of segments, whose strings are numbered from `number`. -/
def entries (number : Int) : List Segment → List Entry
  | [] => []
  | .words ws :: rest => (rows ws).map rowEntry ++ entries number rest
  | .string chars isZero :: rest =>
    .label (stringName number) :: stringEntry chars isZero :: entries (number + 1) rest

theorem isSteady_string {chars : List UInt16} (printable : ∀ w ∈ chars, isPrintable w = true)
    (isZero optimize : Bool) : (stringEntry chars isZero).IsSteady optimize := by
  refine Entry.isSteady_data ?_ optimize
  intro s line
  obtain ⟨item, read, constant⟩ := read_quoted s line printable isZero
  refine ⟨[item], [_], ?_, ?_, List.flatten_singleton⟩
  · rw [DataItem.readAll, read]
    rfl
  · rw [List.mapM_cons, constant]
    rfl

theorem writes_rows (ws : List UInt16) :
    Writes (((rows ws).map rowEntry).map Entry.tokens) (renderWords ws).toList := by
  have each : ∀ row ∈ rows ws, row ≠ [] := fun _ member => ne_nil_rows member
  unfold renderWords
  revert each
  induction rows ws with
  | nil => exact fun _ => .nil
  | cons row later ih =>
    intro each
    obtain ⟨given, each⟩ := List.forall_mem_cons.1 each
    have line : Writes [(rowEntry row).tokens]
        (sourceLine "DAT" (", ".intercalate (row.map Word.literal))).toList := by
      refine writes_uncommented (isSolid_of_plain Entry.isPlain_dat).isToken
        (by simpa using given) ?_
      intro operand member
      obtain ⟨w, -, rfl⟩ := List.mem_map.1 member
      exact (isSolid_of_plain (Text.isPlain_literal w)).isToken
    rw [List.map_cons, List.map_cons, List.map_cons, String.join_cons, String.toList_append]
    exact line.append (ih each)

theorem isSolid_stringName (number : Int) : Tokenizer.IsSolid (stringName number).toList := by
  have stem : Tokenizer.IsSolid "string".toList := isSolid_of_plain ⟨by decide, by decide⟩
  rw [stringName, String.toList_append]
  exact stem.append (Tokenizer.isSolid_toString number)

theorem writes_string (number : Int) {chars : List UInt16}
    (printable : ∀ w ∈ chars, isPrintable w = true) (isZero : Bool) :
    Writes [[":" ++ stringName number], (stringEntry chars isZero).tokens]
      (renderString number chars isZero).toList := by
  have label : Writes [[":" ++ stringName number]] ((":" ++ stringName number).toList ++ ['\n']) :=
    .label (isSolid_stringName number).whole
  have line : Writes [(stringEntry chars isZero).tokens]
      (sourceLine "DAT" (quoted chars isZero)).toList := by
    rw [← @String.intercalate_singleton ", " (quoted chars isZero)]
    refine writes_uncommented (isSolid_of_plain Entry.isPlain_dat).isToken (by simp) ?_
    intro operand member
    rw [List.mem_singleton.1 member]
    exact isToken_quoted printable isZero
  have text : (renderString number chars isZero).toList =
      (":" ++ stringName number).toList ++ ['\n'] ++
        (sourceLine "DAT" (quoted chars isZero)).toList := by
    simp only [renderString, stringName, String.toList_append]
    rfl
  rw [text]
  exact label.append line

section

variable {segs : List Segment}
  (printable : ∀ chars isZero, .string chars isZero ∈ segs → ∀ w ∈ chars, isPrintable w = true)

include printable

theorem writes_entries (number : Int) :
    Writes ((entries number segs).map Entry.tokens) (renderSegments number segs).1.toList := by
  induction segs generalizing number with
  | nil => exact .nil
  | cons segment later ih =>
    have behind := ih fun chars isZero member =>
      printable chars isZero (List.mem_cons_of_mem _ member)
    cases segment with
    | words ws =>
      rw [entries, List.map_append, renderSegments, String.toList_append]
      exact (writes_rows ws).append (behind number)
    | string chars isZero =>
      rw [renderSegments, String.toList_append]
      exact (writes_string number (printable chars isZero List.mem_cons_self) isZero).append
        (behind (number + 1))

theorem isSteady_entries (number : Int) (optimize : Bool) :
    ∀ e ∈ entries number segs, e.IsSteady optimize := by
  induction segs generalizing number with
  | nil => simp [entries]
  | cons segment later ih =>
    have behind := ih fun chars isZero member =>
      printable chars isZero (List.mem_cons_of_mem _ member)
    intro e member
    cases segment with
    | words ws =>
      rcases List.mem_append.1 member with here | member
      · obtain ⟨row, -, rfl⟩ := List.mem_map.1 here
        exact Entry.isSteady_literals row optimize
      · exact behind number e member
    | string chars isZero =>
      rcases List.mem_cons.1 member with rfl | member
      · exact Disassembly.isMark_stringName number
      rcases List.mem_cons.1 member with rfl | member
      · exact isSteady_string (printable chars isZero List.mem_cons_self) isZero optimize
      · exact behind (number + 1) e member

end

theorem words_rows (rows : List (List UInt16)) :
    (rows.map rowEntry).filterMap Entry.words? = rows := by
  rw [List.filterMap_map]
  exact List.filterMap_some

theorem names_rows (rows : List (List UInt16)) :
    (rows.map rowEntry).filterMap Entry.name? = [] := by
  rw [List.filterMap_map]
  exact List.filterMap_eq_nil_iff.2 fun _ _ => rfl

theorem words_entries (number : Int) (segs : List Segment) :
    ((entries number segs).filterMap Entry.words?).flatten = segs.flatMap Segment.data := by
  induction segs generalizing number with
  | nil => rfl
  | cons segment later ih =>
    cases segment with
    | words ws =>
      rw [entries, List.filterMap_append, List.flatten_append, words_rows, flatten_rows, ih]
      rfl
    | string chars isZero =>
      have first : (entries number (.string chars isZero :: later)).filterMap Entry.words? =
          (Segment.string chars isZero).data :: (entries (number + 1) later).filterMap
            Entry.words? := rfl
      rw [first, List.flatten_cons, ih]
      rfl

theorem le_renderSegments (number : Int) (segs : List Segment) :
    number ≤ (renderSegments number segs).2 := by
  induction segs generalizing number with
  | nil => exact Int.le_refl _
  | cons segment later ih =>
    cases segment with
    | words ws => exact ih number
    | string chars isZero => exact Int.le_of_lt (ih (number + 1))

theorem names_entries {number : Int} {segs : List Segment} {name : String}
    (member : name ∈ (entries number segs).filterMap Entry.name?) :
    ∃ n, number ≤ n ∧ n < (renderSegments number segs).2 ∧ name = stringName n := by
  induction segs generalizing number with
  | nil => cases member
  | cons segment later ih =>
    cases segment with
    | words ws =>
      rw [entries, List.filterMap_append, names_rows, List.nil_append] at member
      exact ih member
    | string chars isZero =>
      have next : number + 1 ≤ (renderSegments (number + 1) later).2 :=
        le_renderSegments (number + 1) later
      rcases List.mem_cons.1 member with same | member
      · exact ⟨number, Int.le_refl _, next, same⟩
      · obtain ⟨n, above, below, same⟩ := ih member
        exact ⟨n, Int.le_of_lt above, below, same⟩

theorem nodup_entries (number : Int) (segs : List Segment) :
    (((entries number segs).filterMap Entry.name?).map Text.upper).Nodup := by
  induction segs generalizing number with
  | nil => exact List.nodup_nil
  | cons segment later ih =>
    cases segment with
    | words ws =>
      rw [entries, List.filterMap_append, names_rows, List.nil_append]
      exact ih number
    | string chars isZero =>
      refine List.nodup_cons.2 ⟨?_, ih (number + 1)⟩
      intro member
      obtain ⟨name, found, same⟩ := List.mem_map.1 member
      obtain ⟨n, above, -, rfl⟩ := names_entries found
      have equal := Disassembly.stringKey_injective same
      omega

theorem length_entries {segs : List Segment}
    (long : ∀ chars isZero, .string chars isZero ∈ segs → minString ≤ chars.length)
    (number : Int) : (entries number segs).length ≤ (segs.flatMap Segment.data).length := by
  induction segs generalizing number with
  | nil => exact Nat.le_refl _
  | cons segment later ih =>
    have behind := ih fun chars isZero member =>
      long chars isZero (List.mem_cons_of_mem _ member)
    rw [List.flatMap_cons, List.length_append]
    cases segment with
    | words ws =>
      rw [entries, List.length_append, List.length_map]
      exact Nat.add_le_add (length_rows ws) (behind number)
    | string chars isZero =>
      have enough := long chars isZero List.mem_cons_self
      have rest := behind (number + 1)
      simp only [entries, Segment.data, List.length_cons, List.length_append, minString] at enough ⊢
      omega

end ImageData

/-- Data that is written as source text is assembled again, whatever the number of its first string
and whatever the options. -/
theorem rendered_data_assembles (o : Options) (file : String) (number : Int)
    (data : List UInt16) :
    ∃ enough ≤ data.length + 2, ∀ limit ≥ enough, ∃ program,
      (assemble { o with lineLimit := limit } file (ImageData.render number data).1).outcome =
        .ok program ∧
      program.words = data := by
  have strings {chars : List UInt16} {isZero : Bool}
      (member : .string chars isZero ∈ ImageData.segments [] data) :=
    ImageData.string_segments member
  have whole := ImageData.data_segments [] data
  have writes := ImageData.writes_entries (fun _ _ member => (strings member).1) number
  have short := ImageData.length_entries (fun _ _ member => (strings member).2) number
  rw [whole] at short
  refine ⟨data.length + 2, Nat.le_refl _, ?_⟩
  intro limit enough
  obtain ⟨program, assembled, words⟩ := @assemble_entries { o with lineLimit := limit } _ _ _
    (writes.tokenize file)
    (ImageData.isSteady_entries (fun _ _ member => (strings member).1) number o.optimize)
    (ImageData.nodup_entries number _) (Nat.le_trans (Nat.add_le_add_right short 2) enough)
  rw [ImageData.words_entries, whole] at words
  exact ⟨program, assembled, words⟩

-- Two short characters stay words, only the first string is followed by a zero, and the counter
-- comes from below zero.
theorem rendered_data_assembles_strings :
    let data : List UInt16 := [0x0041, 0x0042, 0xFFFF, 0, 1, 2, 3, 4, 5, 0x61, 0x22, 0x5C, 0x7A, 0,
      0x3B, 0x7B, 0x7D, 0x2C, 0x7F]
    (ImageData.render (-1) data).1 =
      "    DAT      0x0041, 0x0042, 0xFFFF, 0x0000, 0x0001, 0x0002, 0x0003, 0x0004\n" ++
      "    DAT      0x0005\n" ++
      ":string-1\n" ++
      "    DAT      z\"a\\\"\\\\z\"\n" ++
      ":string0\n" ++
      "    DAT      \";\x7b\x7d,\"\n" ++
      "    DAT      0x007F\n" ∧
    ∃ program, (assemble {} "image" (ImageData.render (-1) data).1).outcome = .ok program ∧
      program.words = data := by
  intro data
  obtain ⟨enough, few, assembles⟩ := rendered_data_assembles {} "image" (-1) data
  exact ⟨by decide +kernel, assembles (1 <<< 62) (Nat.le_trans few (by decide))⟩

end WordAsm
