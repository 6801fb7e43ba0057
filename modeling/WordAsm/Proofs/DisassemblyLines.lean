import Mathlib
import WordAsm.Proofs.DataTexts
import WordAsm.Proofs.DisassemblyChunks
import WordAsm.Proofs.LabelNames

/-!
The lines of a disassembly. The name of a label is all that holds an underscore in the line of an
instruction, and a line that defines it stands only before the instruction at its address. Main
statement: the chunks of an image hold each of its words once, and each name that an instruction
shows is defined by one line.
-/
namespace WordAsm

def Text.IsLines (p : List Char → Prop) (s : String) : Prop :=
  ∃ ls : List (List Char), s.toList = ls.flatMap (· ++ ['\n']) ∧ ∀ l ∈ ls, '\n' ∉ l ∧ p l

namespace Text.IsLines

variable {p : List Char → Prop}

theorem empty : IsLines p "" := ⟨[], rfl, by simp⟩

theorem line {s : String} (single : '\n' ∉ s.toList) (holds : p s.toList) :
    IsLines p (s ++ "\n") := by
  refine ⟨[s.toList], ?_, ?_⟩
  · rw [String.toList_append, List.flatMap_singleton]
    rfl
  · intro l member
    rw [List.mem_singleton.1 member]
    exact ⟨single, holds⟩

theorem append {s t : String} (first : IsLines p s) (second : IsLines p t) :
    IsLines p (s ++ t) := by
  obtain ⟨ls, text, each⟩ := first
  obtain ⟨ls', text', each'⟩ := second
  refine ⟨ls ++ ls', ?_, ?_⟩
  · rw [String.toList_append, text, text', List.flatMap_append]
  · intro l member
    rcases List.mem_append.1 member with member | member
    · exact each l member
    · exact each' l member

theorem join {ss : List String} (each : ∀ s ∈ ss, IsLines p s) : IsLines p (String.join ss) := by
  induction ss with
  | nil => exact empty
  | cons s ss ih =>
    rw [String.join_cons]
    refine (each s List.mem_cons_self).append (ih ?_)
    intro t member
    exact each t (List.mem_cons_of_mem _ member)

theorem mono {q : List Char → Prop} {s : String} (lines : IsLines p s) (weaker : ∀ l, p l → q l) :
    IsLines q s := by
  obtain ⟨ls, text, each⟩ := lines
  exact ⟨ls, text, fun l member => ⟨(each l member).1, weaker l (each l member).2⟩⟩

theorem splitOn_cons {l : List Char} (single : '\n' ∉ l) (rest : List Char) :
    (l ++ '\n' :: rest).splitOn '\n' = l :: rest.splitOn '\n' := by
  refine List.splitOnP_append_cons_of_forall_mem ?_ _ rfl rest
  intro c member
  rw [beq_eq_false_iff_ne]
  rintro rfl
  exact single member

theorem splitOn {s : String} (lines : IsLines p s) (rest : List Char) :
    ∃ ls, (s.toList ++ rest).splitOn '\n' = ls ++ rest.splitOn '\n' ∧ ∀ l ∈ ls, p l := by
  obtain ⟨ls, text, each⟩ := lines
  refine ⟨ls, ?_, fun l member => (each l member).2⟩
  rw [text]
  clear text
  induction ls with
  | nil => rfl
  | cons l ls ih =>
    have later := ih fun l member => each l (List.mem_cons_of_mem _ member)
    rw [List.flatMap_cons, List.append_assoc, List.append_assoc, List.singleton_append,
      splitOn_cons (each l List.mem_cons_self).1, later, List.cons_append]

end Text.IsLines

/-- A text of one line without an underscore. -/
def Text.IsQuiet (s : String) : Prop := ∀ c ∈ s.toList, c ≠ '\n' ∧ c ≠ '_'

namespace Text

instance (s : String) : Decidable (IsQuiet s) :=
  inferInstanceAs (Decidable (∀ c ∈ s.toList, c ≠ '\n' ∧ c ≠ '_'))

theorem isQuiet_append {s t : String} (first : IsQuiet s) (second : IsQuiet t) :
    IsQuiet (s ++ t) := by
  intro c member
  rw [String.toList_append] at member
  rcases List.mem_append.1 member with member | member
  · exact first c member
  · exact second c member

theorem isQuiet_intercalate {separator : String} (quiet : IsQuiet separator) {texts : List String}
    (each : ∀ s ∈ texts, IsQuiet s) : IsQuiet (separator.intercalate texts) := by
  induction texts with
  | nil => exact (by decide : IsQuiet "")
  | cons s texts ih =>
    have first := each s List.mem_cons_self
    have later := ih fun t member => each t (List.mem_cons_of_mem _ member)
    cases texts with
    | nil => exact first
    | cons t texts =>
      rw [String.intercalate_cons_cons]
      exact isQuiet_append (isQuiet_append first quiet) later

theorem isQuiet_hex (width n : Nat) : IsQuiet (hex width n) := by
  intro c member
  rw [hex, String.toList_ofList] at member
  rcases List.mem_append.1 member with zero | digit
  · rw [List.eq_of_mem_replicate zero]
    decide
  · obtain ⟨e, inside, rfl⟩ := List.mem_map.1 digit
    obtain ⟨d, bound, rfl⟩ := mem_toDigits (by decide : 1 < 16) inside
    have checked : ∀ d < 16, d.digitChar.toUpper ≠ '\n' ∧ d.digitChar.toUpper ≠ '_' := by decide
    exact checked d bound

theorem isQuiet_toString (n : Nat) : IsQuiet (toString n) := by
  intro c member
  rw [Nat.toString_eq_ofList_toDigits, String.toList_ofList] at member
  obtain ⟨d, bound, rfl⟩ := mem_toDigits (by decide : 1 < 10) member
  have checked : ∀ d < 10, d.digitChar ≠ '\n' ∧ d.digitChar ≠ '_' := by decide
  exact checked d bound

theorem isQuiet_signed (n : Int) : IsQuiet (toString n) := by
  rcases toString_sign n with ⟨m, -, text⟩ | ⟨m, -, -, text⟩
  · rw [text]
    exact isQuiet_toString m
  · rw [text]
    exact isQuiet_append (by decide) (isQuiet_toString m)

theorem isQuiet_literal (w : UInt16) : IsQuiet (Word.literal w) :=
  isQuiet_append (by decide) (isQuiet_hex 4 w.toNat)

theorem isQuiet_register (r : Register) : IsQuiet r.name := by
  cases r <;> decide

theorem isQuiet_argument (a : Argument) : IsQuiet a.text := by
  cases a with
  | register r => exact isQuiet_register r
  | indirect r => exact isQuiet_append (isQuiet_append (by decide) (isQuiet_register r)) (by decide)
  | displaced w r =>
    have base := isQuiet_append (by decide : IsQuiet "[") (isQuiet_literal w)
    exact isQuiet_append
      (isQuiet_append (isQuiet_append base (by decide)) (isQuiet_register r)) (by decide)
  | memory w => exact isQuiet_append (isQuiet_append (by decide) (isQuiet_literal w)) (by decide)
  | word w => exact isQuiet_literal w
  | short v => exact isQuiet_toString v.toNat
  | pop | peek | push | sp | pc | overflow => exact (by decide)

theorem isQuiet_mnemonic (d : Decoded) : IsQuiet d.mnemonic := by
  have basic (op : BasicOp) : IsQuiet op.name := by cases op <;> decide
  have special (op : SpecialOp) : IsQuiet op.name := by cases op; decide
  cases d with
  | basic op a b => exact basic op
  | special op a => exact special op
  | raw w => exact (by decide : IsQuiet "DAT")

theorem isQuiet_operand {d : Decoded} {s : String} (member : s ∈ d.operandTexts) : IsQuiet s := by
  have argument {args : List Argument} (member : s ∈ args.map Argument.text) : IsQuiet s := by
    obtain ⟨a, -, rfl⟩ := List.mem_map.1 member
    exact isQuiet_argument a
  cases d with
  | basic op a b => exact argument member
  | special op a => exact argument member
  | raw w =>
    rw [List.mem_singleton.1 member]
    exact isQuiet_literal w

end Text

namespace Disassembly

open Text

theorem labelName_injective {a b : Nat} {kind kind' : Transfer}
    (same : labelName a kind = labelName b kind') : a = b ∧ kind = kind' :=
  labelKey_injective (congrArg Text.upper same)

theorem newline_labelName (t : Nat) (kind : Transfer) : '\n' ∉ (labelName t kind).toList := by
  intro member
  have word := (isName_labelName t kind).plain.word _ member
  exact absurd word (by decide)

/-- The line that defines a label. -/
def definition (t : Nat) (kind : Transfer) : List Char := ':' :: (labelName t kind).toList

def IsOther (l : List Char) : Prop := ∀ t kind, l ≠ definition t kind

theorem isOther_sourceLine (mnemonic operands : String) :
    IsOther
      ("    " ++ String.ofList (Text.padRight 8 ' ' mnemonic.toList) ++ " " ++
        operands).toList := by
  intro t kind same
  simp [String.toList_append, definition] at same

theorem isLines_sourceLine {p : List Char → Prop} {mnemonic operands : String}
    (quiet : IsQuiet mnemonic) (single : '\n' ∉ operands.toList) (other : ∀ l, IsOther l → p l) :
    IsLines p (ImageData.sourceLine mnemonic operands) := by
  refine IsLines.line ?_ (other _ (isOther_sourceLine mnemonic operands))
  have padded : '\n' ∉ Text.padRight 8 ' ' mnemonic.toList := by
    intro member
    rcases List.mem_append.1 member with member | blank
    · exact (quiet _ member).1 rfl
    · exact absurd (List.eq_of_mem_replicate blank) (by decide)
  simp only [String.toList_append, List.mem_append, String.toList_ofList]
  rintro (((indent | member) | blank) | member)
  · exact absurd indent (by decide)
  · exact padded member
  · exact absurd blank (by decide)
  · exact single member

/-! Data. -/

theorem isOther_string (number : Int) : IsOther (":string" ++ toString number).toList := by
  intro t kind same
  have text : ":string" ++ toString number = ":" ++ stringName number := by
    rw [stringName, ← String.append_assoc]
    rfl
  rw [text, String.toList_append] at same
  have names : stringName number = labelName t kind := String.toList_inj.1 (List.cons.inj same).2
  exact stringKey_ne number t kind (congrArg Text.upper names)

theorem isLines_words (ws : List UInt16) : IsLines IsOther (ImageData.renderWords ws) := by
  apply IsLines.join
  intro s member
  obtain ⟨row, -, rfl⟩ := List.mem_map.1 member
  refine isLines_sourceLine (by decide) ?_ fun l other => other
  have quiet : IsQuiet (", ".intercalate (row.map Word.literal)) := by
    apply isQuiet_intercalate (by decide)
    intro s member
    obtain ⟨w, -, rfl⟩ := List.mem_map.1 member
    exact isQuiet_literal w
  exact fun member => (quiet _ member).1 rfl

theorem isLines_string (number : Int) {chars : List UInt16}
    (printable : ∀ w ∈ chars, ImageData.isPrintable w = true) (isZero : Bool) :
    IsLines IsOther (ImageData.renderString number chars isZero) := by
  have name : '\n' ∉ (":string" ++ toString number).toList := by
    have quiet := isQuiet_append (by decide : IsQuiet ":string") (isQuiet_signed number)
    exact fun member => (quiet _ member).1 rfl
  refine (IsLines.line name (isOther_string number)).append
    (isLines_sourceLine (by decide) ?_ fun l other => other)
  rw [String.toList_append, String.toList_ofList]
  simp only [List.mem_append, List.mem_cons, List.mem_flatMap]
  rintro (flag | (quote | ⟨w, inside, member⟩) | quote)
  · cases isZero <;> exact absurd flag (by decide)
  · exact absurd quote (by decide)
  · exact ImageData.newline_escape (printable w inside) member
  · exact absurd quote (by decide)

theorem isLines_segments {segments : List ImageData.Segment}
    (printable : ∀ chars isZero, .string chars isZero ∈ segments →
      ∀ w ∈ chars, ImageData.isPrintable w = true) (number : Int) :
    IsLines IsOther (ImageData.renderSegments number segments).1 := by
  induction segments generalizing number with
  | nil => exact .empty
  | cons segment segments ih =>
    have later := ih fun chars isZero member =>
      printable chars isZero (List.mem_cons_of_mem _ member)
    cases segment with
    | words ws => exact (isLines_words ws).append (later number)
    | string chars isZero =>
      exact (isLines_string number (printable chars isZero List.mem_cons_self) isZero).append
        (later (number + 1))

theorem isLines_data (number : Int) (words : List UInt16) :
    IsLines IsOther (ImageData.render number words).1 :=
  isLines_segments (fun _ _ member => (ImageData.string_segments member).1) number

/-! Code. -/

namespace Plan

theorem operands_cases (p : Plan) (address : Nat) (d : Decoded) :
    IsQuiet (p.operands address d) ∨
      ∃ front t kind, IsQuiet front ∧ p.labels.getD t none = some kind ∧
        p.operands address d = front ++ labelName t kind := by
  have texts := isQuiet_intercalate (by decide : IsQuiet ", ") fun s member =>
    isQuiet_operand (d := d) (s := s) member
  unfold operands
  split
  · exact .inl texts
  · rename_i name found
    obtain ⟨⟨t, why⟩, -, label⟩ := Option.bind_eq_some_iff.1 found
    obtain ⟨kind, shown, rfl⟩ := Option.map_eq_some_iff.1 label
    refine .inr ?_
    split
    · exact ⟨_, t, kind, isQuiet_append texts (by decide), shown, rfl⟩
    · exact ⟨_, t, kind, isQuiet_append texts (by decide), shown, rfl⟩
    · cases d with
      | basic op a b =>
        refine ⟨a.text ++ ", ", t, kind, isQuiet_append (isQuiet_argument a) (by decide), shown,
          rfl⟩
      | special op a => exact ⟨"", t, kind, by decide, shown, (String.empty_append).symm⟩
      | raw w => exact ⟨"", t, kind, by decide, shown, (String.empty_append).symm⟩

theorem newline_operands (p : Plan) (address : Nat) (d : Decoded) :
    '\n' ∉ (p.operands address d).toList := by
  rcases p.operands_cases address d with quiet | ⟨front, t, kind, quiet, -, text⟩
  · exact fun member => (quiet _ member).1 rfl
  · rw [text, String.toList_append, List.mem_append]
    rintro (member | member)
    · exact (quiet _ member).1 rfl
    · exact newline_labelName t kind member

def Defines (chunks : List Chunk) (l : List Char) : Prop :=
  ∀ t kind, l = definition t kind → ∃ ws d, Chunk.code t ws d ∈ chunks

theorem isLines_code (p : Plan) {chunks : List Chunk} {a : Nat} {ws : List UInt16} {d : Decoded}
    (member : .code a ws d ∈ chunks) : IsLines (Defines chunks) (p.renderCode a d) := by
  have other : ∀ l, IsOther l → Defines chunks l := by
    intro l other t kind same
    exact absurd same (other t kind)
  refine IsLines.append ?_ (isLines_sourceLine (isQuiet_mnemonic d) (p.newline_operands a d) other)
  cases label : p.label? a with
  | none => exact .empty
  | some name =>
    obtain ⟨kind, -, rfl⟩ := Option.map_eq_some_iff.1 label
    refine IsLines.line ?_ ?_
    · rw [String.toList_append, List.mem_append]
      rintro (colon | inside)
      · exact absurd colon (by decide)
      · exact newline_labelName a kind inside
    · intro t kind' same
      rw [String.toList_append] at same
      obtain ⟨rfl, -⟩ := labelName_injective (String.toList_inj.1 (List.cons.inj same).2)
      exact ⟨ws, d, member⟩

theorem renderChunks_data (p : Plan) (number : Int) (a : Nat) (ws : List UInt16)
    (rest : List Chunk) :
    p.renderChunks number (.data a ws :: rest) =
      (ImageData.render number ws).1 :: p.renderChunks (ImageData.render number ws).2 rest := rfl

theorem isLines_chunks (p : Plan) {chunks : List Chunk} (part : List Chunk) (number : Int)
    (within : ∀ c ∈ part, c ∈ chunks) :
    IsLines (Defines chunks) (String.join (p.renderChunks number part)) := by
  induction part generalizing number with
  | nil => exact .empty
  | cons c part ih =>
    have later := fun number => ih number fun c member => within c (List.mem_cons_of_mem _ member)
    cases c with
    | code a ws d =>
      rw [renderChunks, String.join_cons]
      exact (p.isLines_code (within _ List.mem_cons_self)).append (later number)
    | data a ws =>
      rw [renderChunks_data, String.join_cons]
      refine ((isLines_data number ws).mono ?_).append (later _)
      intro l other t kind same
      exact absurd same (other t kind)

theorem renderChunks_append (p : Plan) (before after : List Chunk) (number : Int) :
    ∃ next, p.renderChunks number (before ++ after) =
      p.renderChunks number before ++ p.renderChunks next after := by
  induction before generalizing number with
  | nil => exact ⟨number, rfl⟩
  | cons c before ih =>
    cases c with
    | code a ws d =>
      obtain ⟨next, rest⟩ := ih number
      refine ⟨next, ?_⟩
      rw [List.cons_append, renderChunks, rest, renderChunks, List.cons_append]
    | data a ws =>
      obtain ⟨next, rest⟩ := ih (ImageData.render number ws).2
      refine ⟨next, ?_⟩
      rw [List.cons_append, renderChunks_data, rest, renderChunks_data, List.cons_append]

end Plan

/-! Names in a text. -/

theorem length_hex {n : Nat} (bound : n < 0x10000) : (Text.hex 4 n).toList.length = 4 := by
  have short := (Nat.length_toDigits_le_iff (by decide : 1 < 16) (by decide : 0 < 4)).2 bound
  rw [Text.hex, String.toList_ofList, Text.padLeft, List.length_append, List.length_replicate,
    Text.hexChars, List.length_map]
  omega

theorem le_length_hex (n : Nat) : 4 ≤ (Text.hex 4 n).toList.length := by
  rw [Text.hex, String.toList_ofList, Text.padLeft, List.length_append, List.length_replicate]
  omega

theorem toList_labelName (t : Nat) (kind : Transfer) :
    ∃ letters, '_' ∉ letters ∧ letters.length = 3 ∧
      (labelName t kind).toList = letters ++ '_' :: (Text.hex 4 t).toList := by
  cases kind with
  | call =>
    refine ⟨['s', 'u', 'b'], by decide, rfl, ?_⟩
    rw [labelName, String.toList_append]
    rfl
  | jump =>
    refine ⟨['l', 'o', 'c'], by decide, rfl, ?_⟩
    rw [labelName, String.toList_append]
    rfl

theorem labelName_of_infix {front : String} (quiet : IsQuiet front) {t t' : Nat}
    {kind kind' : Transfer} (bound : t' < addressSpace)
    (shown : (labelName t kind).toList <:+: (front ++ labelName t' kind').toList) :
    t = t' ∧ kind = kind' := by
  obtain ⟨letters, -, three, name⟩ := toList_labelName t kind
  obtain ⟨letters', free, three', name'⟩ := toList_labelName t' kind'
  obtain ⟨before, after, text⟩ := shown
  have parts : front.toList ++ letters' ++ '_' :: (Text.hex 4 t').toList =
      before ++ letters ++ '_' :: ((Text.hex 4 t).toList ++ after) := by
    rw [String.toList_append, name, name'] at text
    simpa using text.symm
  have left : '_' ∉ front.toList ++ letters' := by
    rw [List.mem_append]
    rintro (member | member)
    · exact (quiet _ member).2 rfl
    · exact free member
  have right : '_' ∉ (Text.hex 4 t').toList := fun member => (isQuiet_hex 4 t' _ member).2 rfl
  obtain ⟨stems, -, digits⟩ := (List.append_cons_inj_of_notMem left right).1 parts
  have same : letters = letters' := (List.append_inj_right' stems (by omega)).symm
  have nothing : after = [] := by
    have length := congrArg List.length digits
    have least := le_length_hex t
    rw [List.length_append, length_hex bound] at length
    exact List.length_eq_zero_iff.1 (by omega)
  rw [nothing, List.append_nil] at digits
  apply labelName_injective
  apply String.toList_inj.1
  rw [name, name', same, digits]

namespace Plan

/-- One line of the text defines a label, and it stands directly before the instruction at the
address of the label. -/
def DefinesOnce (p : Plan) (t : Nat) (kind : Transfer) : Prop :=
  (p.text.toList.splitOn '\n').count (definition t kind) = 1 ∧
    ∃ before ws d after number, p.chunks = before ++ .code t ws d :: after ∧
      p.text = String.join (p.renderChunks 1 before) ++
        (":" ++ labelName t kind ++ "\n" ++ ImageData.sourceLine d.mnemonic (p.operands t d)) ++
          String.join (p.renderChunks number after)

/-- The lines of a chunk. Data is there word for word, in strings where its words are printable
characters. -/
def Renders (p : Plan) : Chunk → String → Prop
  | .code a _ d, s => s = p.renderCode a d
  | .data _ ws, s => ∃ segments number, segments.flatMap ImageData.Segment.data = ws ∧
      (∀ chars isZero, .string chars isZero ∈ segments →
        ∀ w ∈ chars, ImageData.isPrintable w = true) ∧
      s = (ImageData.renderSegments number segments).1

/-- What the text of an image shows of it. -/
structure Shows (p : Plan) (words : List UInt16) : Prop where
  covers : p.chunks.flatMap Chunk.words = words
  placed : ∀ before c after, p.chunks = before ++ c :: after →
    c.address = (before.flatMap Chunk.words).length
  encoded : ∀ a ws d, .code a ws d ∈ p.chunks → d.words = ws
  written : ∀ before c after, p.chunks = before ++ c :: after → ∃ s number, p.Renders c s ∧
    p.text = String.join (p.renderChunks 1 before) ++ s ++ String.join (p.renderChunks number after)
  defined : ∀ a ws d, .code a ws d ∈ p.chunks → ∀ t kind,
    (labelName t kind).toList <:+: (p.operands a d).toList → p.DefinesOnce t kind

theorem renders_chunk (p : Plan) (number : Int) (c : Chunk) (after : List Chunk) :
    ∃ s next, p.Renders c s ∧ p.renderChunks number (c :: after) =
      s :: p.renderChunks next after := by
  cases c with
  | code a ws d => exact ⟨p.renderCode a d, number, rfl, rfl⟩
  | data a ws =>
    refine ⟨_, _, ⟨ImageData.segments [] ws, number, ?_, ?_, rfl⟩,
      p.renderChunks_data number a ws after⟩
    · exact ImageData.data_segments [] ws
    · intro chars isZero member
      exact (ImageData.string_segments member).1

theorem text_split {p : Plan} {before after : List Chunk} {c : Chunk}
    (split : p.chunks = before ++ c :: after) : ∃ s number, p.Renders c s ∧
      p.text = String.join (p.renderChunks 1 before) ++ s ++
        String.join (p.renderChunks number after) := by
  obtain ⟨number, parts⟩ := p.renderChunks_append before (c :: after) 1
  obtain ⟨s, next, renders, first⟩ := p.renders_chunk number c after
  refine ⟨s, next, renders, ?_⟩
  rw [Plan.text, split, parts, first, String.join_append, String.join_cons]
  simp only [String.append_assoc]

theorem not_defines {address : Nat} {before after part : List Chunk} {t : Nat} {ws : List UInt16}
    {d : Decoded} (follow : Chunk.Follow address (before ++ .code t ws d :: after))
    (within : ∀ c ∈ part, c ∈ before ∨ c ∈ after) (kind : Transfer) {ls : List (List Char)}
    (defines : ∀ l ∈ ls, Defines part l) : definition t kind ∉ ls := by
  intro member
  obtain ⟨ws', d', inside⟩ := defines _ member t kind rfl
  exact follow.address_ne (within _ inside) rfl

theorem count_definition {p : Plan} {before after : List Chunk} {t : Nat} {ws : List UInt16}
    {d : Decoded} (follow : Chunk.Follow 0 (before ++ .code t ws d :: after)) (kind : Transfer)
    (number : Int) :
    ((String.join (p.renderChunks 1 before) ++
      (":" ++ labelName t kind ++ "\n" ++ ImageData.sourceLine d.mnemonic (p.operands t d)) ++
        String.join (p.renderChunks number after)).toList.splitOn '\n').count
      (definition t kind) = 1 := by
  have single : '\n' ∉ definition t kind := by
    rw [definition, List.mem_cons]
    rintro (colon | inside)
    · exact absurd colon (by decide)
    · exact newline_labelName t kind inside
  have instruction : IsLines IsOther (ImageData.sourceLine d.mnemonic (p.operands t d)) :=
    isLines_sourceLine (isQuiet_mnemonic d) (p.newline_operands t d) fun l other => other
  obtain ⟨ls₃, third, other₃⟩ := (p.isLines_chunks after number fun c member => member).splitOn []
  obtain ⟨ls₂, second, other₂⟩ :=
    instruction.splitOn ((String.join (p.renderChunks number after)).toList ++ [])
  obtain ⟨ls₁, first, other₁⟩ := (p.isLines_chunks before 1 fun c member => member).splitOn
    (definition t kind ++ '\n' :: ((ImageData.sourceLine d.mnemonic (p.operands t d)).toList ++
      ((String.join (p.renderChunks number after)).toList ++ [])))
  have parts : (String.join (p.renderChunks 1 before) ++
      (":" ++ labelName t kind ++ "\n" ++ ImageData.sourceLine d.mnemonic (p.operands t d)) ++
        String.join (p.renderChunks number after)).toList =
      (String.join (p.renderChunks 1 before)).toList ++ (definition t kind ++ '\n' ::
        ((ImageData.sourceLine d.mnemonic (p.operands t d)).toList ++
          ((String.join (p.renderChunks number after)).toList ++ []))) := by
    simp [String.toList_append, definition]
  have before_ := not_defines follow (fun c member => .inl member) kind other₁
  have after_ := not_defines follow (fun c member => .inr member) kind other₃
  have between : definition t kind ∉ ls₂ := fun member => other₂ _ member t kind rfl
  have empty : definition t kind ∉ ([] : List Char).splitOn '\n' := by simp [definition]
  rw [parts, first, IsLines.splitOn_cons single, second, third, List.count_append,
    List.count_cons_self, List.count_append, List.count_append,
    List.count_eq_zero_of_not_mem before_, List.count_eq_zero_of_not_mem between,
    List.count_eq_zero_of_not_mem after_, List.count_eq_zero_of_not_mem empty]

theorem definesOnce {p : Plan} {before after : List Chunk} {t : Nat} {ws : List UInt16}
    {d : Decoded} {kind : Transfer} (split : p.chunks = before ++ .code t ws d :: after)
    (follow : Chunk.Follow 0 p.chunks) (label : p.labels.getD t none = some kind) :
    p.DefinesOnce t kind := by
  obtain ⟨_, number, rfl, text⟩ := text_split split
  have shown : p.renderCode t d = ":" ++ labelName t kind ++ "\n" ++
      ImageData.sourceLine d.mnemonic (p.operands t d) := by
    rw [renderCode, label?, label]
    rfl
  rw [shown] at text
  rw [split] at follow
  refine ⟨?_, before, ws, d, after, number, split, text⟩
  rw [text]
  exact count_definition follow kind number

theorem address_lt {words : List UInt16} {c : Chunk} (member : c ∈ (ofWords words).chunks) :
    c.address < words.length := by
  have bound := (cuts_chunks words).follow.address_lt member
  rw [(cuts_chunks words).covers, List.drop_zero] at bound
  omega

theorem shows_ofWords {words : List UInt16} (fits : words.length ≤ addressSpace) :
    (ofWords words).Shows words := by
  have cuts := cuts_chunks words
  refine ⟨cuts.covers, ?_, ?_, fun _ _ _ => text_split, ?_⟩
  · intro before c after split
    have follow := cuts.follow
    rw [split] at follow
    rw [follow.address_eq]
    omega
  · intro a ws d member
    exact (cuts.fits _ member).symm
  · intro a ws d member t kind shown
    rcases (ofWords words).operands_cases a d with quiet | ⟨front, t', kind', quiet, label, text⟩
    · obtain ⟨letters, -, -, name⟩ := toList_labelName t kind
      have underscore : '_' ∈ (labelName t kind).toList := by simp [name]
      exact absurd rfl (quiet _ (shown.subset underscore)).2
    · obtain ⟨ws', d', inside⟩ := label_chunk label
      have bound := address_lt inside
      rw [text] at shown
      obtain ⟨rfl, rfl⟩ := labelName_of_infix quiet (Nat.lt_of_lt_of_le bound fits) shown
      obtain ⟨before, after, split⟩ := List.append_of_mem inside
      exact definesOnce split cuts.follow label

end Plan

/-- The source of an image holds each of its words once, in the order of the image, and defines the
names that it uses. -/
theorem disassemble_shows (words : List UInt16) (filled : words ≠ [])
    (fits : words.length ≤ addressSpace) :
    disassemble words = .ok ((Plan.ofWords words).text, [(Plan.ofWords words).note words.length]) ∧
      (Plan.ofWords words).Shows words := by
  refine ⟨?_, Plan.shows_ofWords fits⟩
  rw [disassemble, if_neg (by omega), if_neg (by simpa using filled)]

def overlapping : List UInt16 := [0x7C10, 5, 0x85C3, 0x41, 0x42, 0x85C1]

theorem disassemble_shows_overlapping :
    overlapping ≠ [] ∧ overlapping.length ≤ addressSpace ∧
      (Plan.ofWords overlapping).text =
        "    JSR      sub_0005\n:loc_0002\n    SUB      PC, 1 ; loc_0002\n" ++
          "    DAT      0x0041, 0x0042\n:sub_0005\n    SET      PC, 1\n" ∧
      disassemble overlapping = .ok ((Plan.ofWords overlapping).text,
        [(Plan.ofWords overlapping).note overlapping.length]) ∧
      (Plan.ofWords overlapping).Shows overlapping :=
  ⟨by decide, by decide, by cbv, disassemble_shows overlapping (by decide) (by decide)⟩

end Disassembly

end WordAsm
