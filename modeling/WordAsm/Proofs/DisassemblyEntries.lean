import WordAsm.Proofs.DecodedLines
import WordAsm.Proofs.DisassemblyChunks
import WordAsm.Proofs.ImageSources
import WordAsm.Proofs.RenderedData

/-!
The source of an image as a list of entries. An instruction is a line of its own, with the name of
the label that its literal goes to if that label is shown; data are lines of words and strings. The
tokenizer finds these entries in the text, and their labels have different names.
-/
namespace WordAsm

open Tokenizer (Scan Writes isSolid_of_plain)

/-- The words of the lines of a segment. -/
def ImageData.Segment.rows : Segment → List (List UInt16)
  | words ws => ImageData.rows ws
  | string chars isZero => [(Segment.string chars isZero).data]

namespace Disassembly

/-- The words of the lines of a chunk. -/
def Chunk.rows : Chunk → List (List UInt16)
  | code _ words _ => [words]
  | data _ words => (ImageData.segments [] words).flatMap ImageData.Segment.rows

namespace Plan

def transfer? (p : Plan) : Decoded → Option (Transfer × String)
  | .special .jsr a => (a.literal?.bind fun v => p.label? v.toNat).map (.call, ·)
  | .basic .set .pc b => (b.literal?.bind fun v => p.label? v.toNat).map (.jump, ·)
  | _ => none

def codeEntry (p : Plan) (d : Decoded) : Entry :=
  match p.transfer? d with
  | some (kind, name) => .transfer kind name
  | none => .statement d.mnemonic d.operandTexts d.words

/-- The entries of chunks, whose strings are numbered from `number`. -/
def entries (p : Plan) (number : Int) : List Chunk → List Entry
  | [] => []
  | .code address _ d :: rest =>
    (p.label? address).toList.map Entry.label ++ p.codeEntry d :: p.entries number rest
  | .data _ words :: rest =>
    ImageData.entries number (ImageData.segments [] words) ++
      p.entries (ImageData.render number words).2 rest

theorem label_cases {p : Plan} {address : Nat} {name : String}
    (shown : p.label? address = some name) :
    ∃ kind, p.labels.getD address none = some kind ∧ name = labelName address kind := by
  obtain ⟨kind, found, rfl⟩ := Option.map_eq_some_iff.1 shown
  exact ⟨kind, found, rfl⟩

theorem isName_label {p : Plan} {address : Nat} {name : String}
    (shown : p.label? address = some name) : IsName name := by
  obtain ⟨kind, -, rfl⟩ := label_cases shown
  exact isName_labelName address kind

theorem transfer_cases {p : Plan} {d : Decoded} {kind : Transfer} {name : String}
    (named : p.transfer? d = some (kind, name)) :
    ∃ a v, d = kind.decoded a ∧ a.literal? = some v ∧ p.label? v.toNat = some name := by
  unfold transfer? at named
  split at named
  · rename_i a
    obtain ⟨name, found, ⟨⟩⟩ := Option.map_eq_some_iff.1 named
    obtain ⟨v, literal, label⟩ := Option.bind_eq_some_iff.1 found
    exact ⟨a, v, rfl, literal, label⟩
  · rename_i b
    obtain ⟨name, found, ⟨⟩⟩ := Option.map_eq_some_iff.1 named
    obtain ⟨v, literal, label⟩ := Option.bind_eq_some_iff.1 found
    exact ⟨b, v, rfl, literal, label⟩
  · cases named

theorem transfer_none {p : Plan} {address : Nat} {d : Decoded}
    (unnamed : (d.target? address).bind (fun t => p.label? t.1) = none) : p.transfer? d = none := by
  cases named : p.transfer? d with
  | none => rfl
  | some found =>
    obtain ⟨a, v, rfl, literal, label⟩ := transfer_cases named
    have target : (found.1.decoded a).target? address = some (v.toNat, found.1) := by
      cases found.1 <;> simp only [Transfer.decoded, Decoded.target?, literal] <;> rfl
    rw [target] at unnamed
    exact absurd (label.symm.trans unnamed) nofun

/-! Lines. -/

theorem operands_eq (p : Plan) (address : Nat) (d : Decoded) :
    (∃ kind name, p.transfer? d = some (kind, name) ∧ d.mnemonic = kind.mnemonic ∧
      p.operands address d = ", ".intercalate (kind.operands name)) ∨
    p.transfer? d = none ∧ ∃ comment, Scan.IsBreak (comment.toList ++ ['\n']) ∧
      p.operands address d = ", ".intercalate d.operandTexts ++ comment := by
  unfold operands
  cases named : (d.target? address).bind fun t => p.label? t.1 with
  | none =>
    exact .inr ⟨transfer_none named, "", Scan.isBreak_newline, (String.append_empty).symm⟩
  | some name =>
    obtain ⟨⟨t, why⟩, target, label⟩ := Option.bind_eq_some_iff.1 named
    have behind : Scan.IsBreak ((" ; " ++ name).toList ++ ['\n']) := by
      have single : '\n' ∉ ' ' :: name.toList := by
        rw [List.mem_cons, not_or]
        exact ⟨by decide, (isName_label label).plain.not_mem rfl⟩
      rw [String.toList_append]
      exact Scan.isBreak_comment single
    -- Calls and `SET PC` have the name in place of their literal, other jumps in a comment.
    unfold Decoded.target? at target
    dsimp only at target
    split at target
    · rename_i a
      obtain ⟨v, literal, ⟨⟩⟩ := Option.map_eq_some_iff.1 target
      refine .inl ⟨.call, name, ?_, rfl, rfl⟩
      simp only [transfer?, literal, Option.bind_some, label, Option.map_some]
    · rename_i b
      obtain ⟨v, literal, ⟨⟩⟩ := Option.map_eq_some_iff.1 target
      refine .inl ⟨.jump, name, ?_, rfl, rfl⟩
      simp only [transfer?, literal, Option.bind_some, label, Option.map_some]
    · exact .inr ⟨rfl, _, behind, String.append_assoc⟩
    · exact .inr ⟨rfl, _, behind, String.append_assoc⟩
    · cases target

theorem writes_code (p : Plan) (address : Nat) (d : Decoded) :
    Writes [(p.codeEntry d).tokens]
      (ImageData.sourceLine d.mnemonic (p.operands address d)).toList := by
  have token := (isSolid_of_plain d.isPlain_mnemonic).isToken
  rcases p.operands_eq address d with ⟨kind, name, named, same, text⟩ |
    ⟨unnamed, comment, broken, text⟩
  · obtain ⟨a, v, -, -, label⟩ := transfer_cases named
    have solid := (isSolid_of_plain (isName_label label).plain).isToken
    rw [codeEntry, named, text, same]
    rw [same] at token
    refine ImageData.writes_uncommented token (by cases kind <;> simp [Transfer.operands]) ?_
    intro operand member
    cases kind with
    | call =>
      rw [List.mem_singleton.1 member]
      exact solid
    | jump =>
      rcases List.mem_cons.1 member with rfl | member
      · exact (Argument.isSolid_text .pc).isToken
      · rw [List.mem_singleton.1 member]
        exact solid
  · have given : d.operandTexts ≠ [] := by
      cases d <;> simp [Decoded.operandTexts, Decoded.arguments]
    rw [codeEntry, unnamed, text]
    exact ImageData.writes_sourceLine token given
      (fun operand member => (d.isSolid_operandTexts operand member).isToken) broken

theorem writes_label (p : Plan) (address : Nat) :
    Writes (((p.label? address).toList.map Entry.label).map Entry.tokens)
      (((p.label? address).map fun name => ":" ++ name ++ "\n").getD "").toList := by
  cases shown : p.label? address with
  | none => exact .nil
  | some name =>
    rw [Option.map_some, Option.getD_some, String.toList_append]
    exact .label (isSolid_of_plain (isName_label shown).plain).whole

theorem writes_entries (p : Plan) (number : Int) (chunks : List Chunk) :
    Writes ((p.entries number chunks).map Entry.tokens)
      (String.join (p.renderChunks number chunks)).toList := by
  induction chunks generalizing number with
  | nil => exact .nil
  | cons c rest ih =>
    cases c with
    | code address words d =>
      have line := (p.writes_code address d).append (ih number)
      rw [renderChunks, String.join_cons, String.toList_append, renderCode, String.toList_append,
        List.append_assoc, entries, List.map_append]
      exact (p.writes_label address).append line
    | data address words =>
      have strings {chars : List UInt16} {isZero : Bool}
          (member : .string chars isZero ∈ ImageData.segments [] words) :=
        (ImageData.string_segments member).1
      rw [entries, List.map_append, renderChunks, String.join_cons, String.toList_append]
      exact (ImageData.writes_entries (fun _ _ => strings) number).append (ih _)

theorem isReadable_code {p : Plan} {d : Decoded}
    (shortest : ∀ a ∈ d.arguments, a.isShortest = true) : (p.codeEntry d).IsReadable false := by
  unfold codeEntry
  cases named : p.transfer? d with
  | none => exact Decoded.isSteady_line shortest
  | some found =>
    obtain ⟨a, v, -, -, label⟩ := transfer_cases named
    exact isName_label label

theorem isReadable_entries {p : Plan} {chunks : List Chunk}
    (shortest : ∀ a ws d, .code a ws d ∈ chunks → ∀ b ∈ d.arguments, b.isShortest = true)
    (number : Int) : ∀ e ∈ p.entries number chunks, e.IsReadable false := by
  induction chunks generalizing number with
  | nil => simp [entries]
  | cons c rest ih =>
    have later := ih fun a ws d member => shortest a ws d (List.mem_cons_of_mem _ member)
    intro e member
    cases c with
    | code address words d =>
      rcases List.mem_append.1 member with label | member
      · obtain ⟨name, found, rfl⟩ := List.mem_map.1 label
        exact (isName_label (Option.mem_toList.1 found)).toIsMark
      rcases List.mem_cons.1 member with rfl | member
      · exact isReadable_code (shortest _ _ _ List.mem_cons_self)
      · exact later number e member
    | data address words =>
      rcases List.mem_append.1 member with here | member
      · exact (ImageData.isSteady_entries (fun _ _ inside => (ImageData.string_segments inside).1)
          number false e here).isReadable
      · exact later _ e member

/-! Labels. -/

section

variable (p : Plan) (number : Int) (address : Nat) (words : List UInt16) (rest : List Chunk)

theorem names_code (d : Decoded) :
    (p.entries number (.code address words d :: rest)).filterMap Entry.name? =
      (p.label? address).toList ++ (p.entries number rest).filterMap Entry.name? := by
  have unlabelled : (p.codeEntry d).name? = none := by
    unfold codeEntry
    split <;> rfl
  rw [entries, List.filterMap_append, List.filterMap_map, List.filterMap_cons_none unlabelled]
  congr 1
  exact List.filterMap_some

theorem names_data :
    (p.entries number (.data address words :: rest)).filterMap Entry.name? =
      (ImageData.entries number (ImageData.segments [] words)).filterMap Entry.name? ++
        (p.entries (ImageData.render number words).2 rest).filterMap Entry.name? :=
  List.filterMap_append

end

theorem names_entries {p : Plan} {number : Int} {chunks : List Chunk} {name : String}
    (member : name ∈ (p.entries number chunks).filterMap Entry.name?) :
    (∃ c ∈ chunks, ∃ kind, name = labelName c.address kind) ∨
      ∃ n, number ≤ n ∧ name = stringName n := by
  induction chunks generalizing number with
  | nil => cases member
  | cons c rest ih =>
    cases c with
    | code address words d =>
      rw [names_code] at member
      rcases List.mem_append.1 member with here | member
      · obtain ⟨kind, -, rfl⟩ := label_cases (Option.mem_toList.1 here)
        exact .inl ⟨_, List.mem_cons_self, kind, rfl⟩
      · rcases ih member with ⟨c, inside, labelled⟩ | numbered
        · exact .inl ⟨c, List.mem_cons_of_mem _ inside, labelled⟩
        · exact .inr numbered
    | data address words =>
      rw [names_data] at member
      rcases List.mem_append.1 member with here | member
      · obtain ⟨n, above, -, same⟩ := ImageData.names_entries here
        exact .inr ⟨n, above, same⟩
      · rcases ih member with ⟨c, inside, labelled⟩ | ⟨n, above, same⟩
        · exact .inl ⟨c, List.mem_cons_of_mem _ inside, labelled⟩
        · exact .inr ⟨n, Int.le_trans (ImageData.le_renderSegments number _) above, same⟩

theorem nodup_entries (p : Plan) {address : Nat} {chunks : List Chunk}
    (follow : Chunk.Follow address chunks) (number : Int) :
    (((p.entries number chunks).filterMap Entry.name?).map Text.upper).Nodup := by
  induction chunks generalizing address number with
  | nil => exact List.nodup_nil
  | cons c rest ih =>
    obtain ⟨here, filled, later⟩ := follow
    cases c with
    | code address' words d =>
      rw [names_code, List.map_append, List.nodup_append]
      refine ⟨?_, ih later number, ?_⟩
      · cases p.label? address' <;> simp
      · intro key first key' second same
        obtain ⟨name, found, rfl⟩ := List.mem_map.1 first
        obtain ⟨name', found', rfl⟩ := List.mem_map.1 second
        obtain ⟨kind, -, rfl⟩ := label_cases (Option.mem_toList.1 found)
        rcases names_entries found' with ⟨c, inside, kind', rfl⟩ | ⟨n, -, rfl⟩
        · have place : address' = c.address := (labelKey_injective same).1
          have least := later.le_address inside
          have some_ := List.length_pos_iff.2 filled
          simp only [Chunk.address] at here
          omega
        · exact stringKey_ne n address' kind same.symm
    | data address' words =>
      rw [names_data, List.map_append, List.nodup_append]
      refine ⟨ImageData.nodup_entries number _, ih later _, ?_⟩
      intro key first key' second same
      obtain ⟨name, found, rfl⟩ := List.mem_map.1 first
      obtain ⟨name', found', rfl⟩ := List.mem_map.1 second
      obtain ⟨n, -, below, rfl⟩ := ImageData.names_entries found
      rcases names_entries found' with ⟨c, -, kind', rfl⟩ | ⟨n', above, rfl⟩
      · exact stringKey_ne n c.address kind' same
      · have equal := stringKey_injective same
        rw [ImageData.render] at above
        omega

theorem length_entries (p : Plan) {address : Nat} {chunks : List Chunk}
    (follow : Chunk.Follow address chunks) (number : Int) :
    (p.entries number chunks).length ≤ 2 * (chunks.flatMap Chunk.words).length := by
  induction chunks generalizing address number with
  | nil => exact Nat.le_refl _
  | cons c rest ih =>
    obtain ⟨-, filled, later⟩ := follow
    have behind := ih later
    have some_ := List.length_pos_iff.2 filled
    rw [List.flatMap_cons, List.length_append]
    cases c with
    | code address' words d =>
      have label : ((p.label? address').toList.map Entry.label).length ≤ 1 := by
        cases p.label? address' <;> simp
      have rest := behind number
      rw [entries, List.length_append, List.length_cons]
      omega
    | data address' words =>
      have whole := ImageData.data_segments [] words
      have lines := @ImageData.length_entries (ImageData.segments [] words)
        (fun _ _ inside => (ImageData.string_segments inside).2) number
      have rest := behind (ImageData.render number words).2
      rw [whole, List.reverse_nil, List.nil_append] at lines
      rw [entries, List.length_append]
      simp only [Chunk.words] at some_ ⊢
      omega

/-! Rows. -/

/-- The parts of a chunk. -/
def parts (p : Plan) (index : String → Nat) : Chunk → List Layout.Part
  | .code _ _ d => [(p.codeEntry d).part index]
  | .data address words => (Chunk.data address words).rows.map .words

theorem length_parts (p : Plan) (index : String → Nat) (c : Chunk) :
    (p.parts index c).length = c.rows.length := by
  cases c with
  | code address words d => rfl
  | data address words => rw [parts, List.length_map]

theorem length_place (p : Plan) (index : String → Nat) (chunks : List Chunk) :
    (chunks.flatMap (p.parts index)).length = (chunks.flatMap Chunk.rows).length := by
  rw [List.length_flatMap, List.length_flatMap, List.map_congr_left fun c _ =>
    p.length_parts index c]

theorem parts_data (index : String → Nat) (number : Int) (segs : List ImageData.Segment) :
    Entry.parts index (ImageData.entries number segs) =
      (segs.flatMap ImageData.Segment.rows).map .words := by
  induction segs generalizing number with
  | nil => rfl
  | cons segment later ih =>
    rw [List.flatMap_cons, List.map_append]
    cases segment with
    | words ws =>
      have whole : ((ImageData.rows ws).map ImageData.rowEntry).filter Entry.isStatement =
          (ImageData.rows ws).map ImageData.rowEntry := by
        refine List.filter_eq_self.2 fun e member => ?_
        obtain ⟨row, -, rfl⟩ := List.mem_map.1 member
        rfl
      have lines : Entry.parts index ((ImageData.rows ws).map ImageData.rowEntry) =
          (ImageData.rows ws).map .words := by
        rw [Entry.parts, whole, List.map_map]
        rfl
      rw [ImageData.entries, Entry.parts_append, lines, ih]
      rfl
    | string chars isZero =>
      rw [← ih (number + 1)]
      rfl

theorem isStatement_code (p : Plan) (d : Decoded) : (p.codeEntry d).isStatement = true := by
  unfold codeEntry
  split <;> rfl

theorem parts_entries (p : Plan) (index : String → Nat) (number : Int) (chunks : List Chunk) :
    Entry.parts index (p.entries number chunks) = chunks.flatMap (p.parts index) := by
  induction chunks generalizing number with
  | nil => rfl
  | cons c rest ih =>
    rw [List.flatMap_cons]
    cases c with
    | code address words d =>
      have label : Entry.parts index ((p.label? address).toList.map Entry.label) = [] := by
        cases p.label? address <;> rfl
      rw [entries, Entry.parts_append, label, List.nil_append, ← List.singleton_append,
        Entry.parts_append, ih, Entry.parts, List.filter_singleton, p.isStatement_code d]
      rfl
    | data address words => rw [entries, Entry.parts_append, parts_data, ih, parts, Chunk.rows]

/-! Marks. -/

theorem length_statements (p : Plan) (number : Int) (chunks : List Chunk) :
    ((p.entries number chunks).filter Entry.isStatement).length =
      (chunks.flatMap Chunk.rows).length := by
  have parts := congrArg List.length (p.parts_entries (fun _ => 0) number chunks)
  rwa [Entry.parts, List.length_map, length_place] at parts

theorem names_of_label {p : Plan} {chunks : List Chunk} {a : Nat} {ws : List UInt16} {d : Decoded}
    (member : .code a ws d ∈ chunks) {name : String} (shown : p.label? a = some name)
    (number : Int) : name ∈ (p.entries number chunks).filterMap Entry.name? := by
  induction chunks generalizing number with
  | nil => cases member
  | cons c rest ih =>
    cases c with
    | code address words d' =>
      rw [names_code]
      rcases List.mem_cons.1 member with same | later
      · cases same
        exact List.mem_append_left _ (Option.mem_toList.2 shown)
      · exact List.mem_append_right _ (ih later number)
    | data address words =>
      rw [names_data]
      rcases List.mem_cons.1 member with same | later
      · cases same
      · exact List.mem_append_right _ (ih later _)

theorem codeEntry_eq_transfer {p : Plan} {d : Decoded} {kind : Transfer} {name : String} :
    p.codeEntry d = .transfer kind name ↔ p.transfer? d = some (kind, name) := by
  unfold codeEntry
  split
  · rename_i found
    rw [found]
    simp
  · rename_i unnamed
    rw [unnamed]
    simp

theorem transfer_of_entry {p : Plan} {number : Int} {chunks : List Chunk} {kind : Transfer}
    {name : String} (member : .transfer kind name ∈ p.entries number chunks) :
    ∃ a ws d, .code a ws d ∈ chunks ∧ p.transfer? d = some (kind, name) := by
  induction chunks generalizing number with
  | nil => cases member
  | cons c rest ih =>
    have behind {number : Int} (later : .transfer kind name ∈ p.entries number rest) :
        ∃ a ws d, .code a ws d ∈ c :: rest ∧ p.transfer? d = some (kind, name) := by
      obtain ⟨a, ws, d, inside, named⟩ := ih later
      exact ⟨a, ws, d, List.mem_cons_of_mem _ inside, named⟩
    cases c with
    | code address words d =>
      rcases List.mem_append.1 member with label | member
      · obtain ⟨_, -, same⟩ := List.mem_map.1 label
        cases same
      rcases List.mem_cons.1 member with same | later
      · exact ⟨address, words, d, List.mem_cons_self, codeEntry_eq_transfer.1 same.symm⟩
      · exact behind later
    | data address words =>
      rcases List.mem_append.1 member with here | later
      · have steady := ImageData.isSteady_entries
          (fun _ _ inside => (ImageData.string_segments inside).1) number false _ here
        exact steady.elim
      · exact behind later

theorem marks_code (p : Plan) (start address : Nat) (number : Int) (words : List UInt16)
    (d : Decoded)
    (rest : List Chunk) :
    Entry.marks start (p.entries number (.code address words d :: rest)) =
      (p.label? address).toList.map (·, start) ++
        Entry.marks (start + 1) (p.entries number rest) := by
  have next (entries : List Entry) :
      Entry.marks start (p.codeEntry d :: entries) = Entry.marks (start + 1) entries := by
    unfold codeEntry
    split <;> rfl
  rw [entries]
  cases p.label? address with
  | none => exact next _
  | some name => exact congrArg ((name, start) :: ·) (next _)

theorem marks_entries {p : Plan} {start : Nat} {number : Int} {chunks : List Chunk} {t : Nat}
    {kind : Transfer} {j : Nat}
    (member : (labelName t kind, j) ∈ Entry.marks start (p.entries number chunks)) :
    ∃ before ws d after, chunks = before ++ .code t ws d :: after ∧
      j = start + (before.flatMap Chunk.rows).length := by
  induction chunks generalizing start number with
  | nil => cases member
  | cons c rest ih =>
    cases c with
    | code address words d =>
      rw [marks_code] at member
      rcases List.mem_append.1 member with here | later
      · obtain ⟨name, found, same⟩ := List.mem_map.1 here
        obtain ⟨kind', -, rfl⟩ := label_cases (Option.mem_toList.1 found)
        obtain ⟨name, rfl⟩ := Prod.mk.inj same
        obtain ⟨rfl, -⟩ := labelKey_injective (congrArg Text.upper name)
        exact ⟨[], words, d, rest, rfl, rfl⟩
      · obtain ⟨before, ws, d', after, rfl, rfl⟩ := ih later
        refine ⟨.code address words d :: before, ws, d', after, rfl, ?_⟩
        rw [List.flatMap_cons, List.length_append, Chunk.rows, List.length_singleton, Nat.add_assoc]
    | data address words =>
      have length : ((ImageData.entries number (ImageData.segments [] words)).filter
          Entry.isStatement).length = (Chunk.data address words).rows.length := by
        have parts := congrArg List.length
          (parts_data (fun _ => 0) number (ImageData.segments [] words))
        rwa [Entry.parts, List.length_map, List.length_map] at parts
      rw [entries, Entry.marks_append, length] at member
      rcases List.mem_append.1 member with here | later
      · -- The name of a string is none of code.
        have named := List.mem_map_of_mem (f := Prod.fst) here
        rw [Entry.fst_marks] at named
        obtain ⟨n, -, -, same⟩ := ImageData.names_entries named
        exact absurd (congrArg Text.upper same.symm) (stringKey_ne n t kind)
      · obtain ⟨before, ws, d, after, rfl, rfl⟩ := ih later
        refine ⟨.data address words :: before, ws, d, after, rfl, ?_⟩
        rw [List.flatMap_cons, List.length_append, Nat.add_assoc]

end Plan

end Disassembly

end WordAsm
