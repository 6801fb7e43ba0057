import WordAsm.Proofs.DisassemblyEntries

/-!
The layout of a disassembled image. Its rows are those of the image, and the label of an address
marks the row there. Which rows the provisional pass makes wider can be told from the image alone.
-/
namespace WordAsm.Disassembly

namespace Plan

/-! Wider rows. -/

/-- The target of a call or jump that has its literal in the instruction word, if the label there is
shown. -/
def shortTarget? (p : Plan) : Decoded → Option Nat
  | .special .jsr (.short v) | .basic .set .pc (.short v) =>
    if (p.label? v.toNat).isSome then some v.toNat else none
  | _ => none

/-- Adds the address of an instruction that the provisional pass makes longer. Such an instruction
goes to a later label, or to one that the longer ones before it have moved out of the reach of a
literal in the instruction word. -/
def widen (p : Plan) (wide : List Nat) : Chunk → List Nat
  | .code a _ d =>
    match p.shortTarget? d with
    | some t => if a < t ∨ Field.maxLiteral.toNat < t + wide.countP (· < t) then a :: wide else wide
    | none => wide
  | .data .. => wide

def widened (p : Plan) : List Nat := p.chunks.foldl p.widen []

section

variable {p : Plan}

theorem widen_cases (p : Plan) (wide : List Nat) (c : Chunk) :
    p.widen wide c = wide ∨ ∃ ws d t, c = .code c.address ws d ∧ p.shortTarget? d = some t ∧
      p.widen wide c = c.address :: wide := by
  cases c with
  | data a ws => exact .inl rfl
  | code a ws d =>
    unfold widen
    dsimp only
    split
    · rename_i t found
      split
      · exact .inr ⟨ws, d, t, rfl, found, rfl⟩
      · exact .inl rfl
    · exact .inl rfl

theorem foldl_widen {address : Nat} {chunks : List Chunk} (follow : Chunk.Follow address chunks)
    (wide : List Nat) : ∃ more, chunks.foldl p.widen wide = more ++ wide ∧ more.Nodup ∧
      ∀ w ∈ more, ∃ ws d t, .code w ws d ∈ chunks ∧ p.shortTarget? d = some t := by
  induction chunks generalizing address wide with
  | nil => exact ⟨[], rfl, List.nodup_nil, by simp⟩
  | cons c rest ih =>
    obtain ⟨here, filled, later⟩ := follow
    obtain ⟨more, folded, distinct, each⟩ := ih later (p.widen wide c)
    have each' (w : Nat) (member : w ∈ more) :
        ∃ ws d t, .code w ws d ∈ c :: rest ∧ p.shortTarget? d = some t := by
      obtain ⟨ws, d, t, inside, short⟩ := each w member
      exact ⟨ws, d, t, List.mem_cons_of_mem _ inside, short⟩
    rw [List.foldl_cons, folded]
    rcases p.widen_cases wide c with same | ⟨ws, d, t, code, short, wider⟩
    · exact ⟨more, by rw [same], distinct, each'⟩
    · refine ⟨more ++ [c.address], by simp [wider], ?_, ?_⟩
      · refine List.nodup_append.2 ⟨distinct, by simp, ?_⟩
        intro w member w' last same
        obtain ⟨ws', d', -, inside, -⟩ := each w member
        have least := later.le_address inside
        have some_ := List.length_pos_iff.2 filled
        rw [List.mem_singleton.1 last] at same
        simp only [Chunk.address] at least
        omega
      · intro w member
        rcases List.mem_append.1 member with member | last
        · exact each' w member
        · rw [List.mem_singleton.1 last]
          exact ⟨ws, d, t, code ▸ List.mem_cons_self, short⟩

variable (follow : Chunk.Follow 0 p.chunks)

include follow

theorem nodup_widened : p.widened.Nodup := by
  obtain ⟨more, folded, distinct, -⟩ := foldl_widen (p := p) follow []
  rw [widened, folded, List.append_nil]
  exact distinct

theorem code_of_widened {w : Nat} (member : w ∈ p.widened) :
    ∃ ws d t, .code w ws d ∈ p.chunks ∧ p.shortTarget? d = some t := by
  obtain ⟨more, folded, -, each⟩ := foldl_widen (p := p) follow []
  rw [widened, folded, List.append_nil] at member
  exact each w member

theorem mem_widened_iff {a : Nat} {ws : List UInt16} {d : Decoded} {t : Nat}
    (member : .code a ws d ∈ p.chunks) (short : p.shortTarget? d = some t) :
    a ∈ p.widened ↔ a < t ∨ Field.maxLiteral.toNat < t + p.widened.countP (· < t) := by
  obtain ⟨before, after, split⟩ := List.append_of_mem member
  rw [split] at follow
  have place : a = 0 + (before.flatMap Chunk.words).length := follow.address_eq
  obtain ⟨front, back⟩ := follow.split
  obtain ⟨-, filled, back⟩ := back
  obtain ⟨first, folded, -, each⟩ := foldl_widen (p := p) front []
  obtain ⟨second, folded', -, each'⟩ := foldl_widen (p := p) back (p.widen first (.code a ws d))
  have whole : p.widened = second ++ p.widen first (.code a ws d) := by
    rw [widened, split, List.foldl_append, List.foldl_cons, folded, List.append_nil, folded']
  have lower (w : Nat) (inside : w ∈ first) : w < a := by
    obtain ⟨ws', d', -, inside, -⟩ := each w inside
    rw [place]
    exact front.address_lt inside
  have upper (w : Nat) (inside : w ∈ second) : a < w := by
    obtain ⟨ws', d', -, inside, -⟩ := each' w inside
    have least : _ ≤ w := back.le_address inside
    have some_ := List.length_pos_iff.2 filled
    omega
  rw [whole, List.mem_append, List.countP_append, widen, short]
  dsimp only
  by_cases later : a < t
  · simp [later]
  · -- Instructions behind this one count for no earlier label.
    have none : second.countP (· < t) = 0 := by
      refine List.countP_eq_zero.2 fun w inside => ?_
      have above := upper w inside
      simp only [decide_eq_true_eq]
      omega
    have absent : a ∉ second := fun inside => Nat.lt_irrefl a (upper a inside)
    have absent' : a ∉ first := fun inside => Nat.lt_irrefl a (lower a inside)
    simp only [later, false_or, none, Nat.zero_add, absent]
    split
    · rename_i far
      simp [later, far]
    · rename_i near
      simp [absent', near]

end

/-! Rows of an image. -/

/-- The lines of the source. -/
def lines (p : Plan) : List Entry := p.entries 1 p.chunks

/-- The words of the lines. -/
def rows (p : Plan) : List (List UInt16) := p.chunks.flatMap Chunk.rows

theorem flatten_segment (segment : ImageData.Segment) : segment.rows.flatten = segment.data := by
  cases segment with
  | words ws => exact ImageData.flatten_rows ws
  | string chars isZero => exact List.flatten_singleton

theorem flatten_chunk (c : Chunk) : c.rows.flatten = c.words := by
  cases c with
  | code address words d => exact List.flatten_singleton
  | data address words =>
    rw [Chunk.rows, List.flatten_eq_flatMap, List.flatMap_assoc]
    simp only [← List.flatten_eq_flatMap, flatten_segment]
    exact ImageData.data_segments [] words

theorem flatten_chunks (chunks : List Chunk) :
    (chunks.flatMap Chunk.rows).flatten = chunks.flatMap Chunk.words := by
  rw [List.flatten_eq_flatMap, List.flatMap_assoc]
  simp only [← List.flatten_eq_flatMap, flatten_chunk]

theorem offset_place {p : Plan} {before after : List Chunk} (split : p.chunks = before ++ after) :
    Layout.offset p.rows (before.flatMap Chunk.rows).length =
      (before.flatMap Chunk.words).length := by
  rw [Layout.offset, rows, split, List.flatMap_append, List.take_left, flatten_chunks]

theorem ne_nil_chunk {c : Chunk} (filled : c.words ≠ []) {row : List UInt16}
    (member : row ∈ c.rows) : row ≠ [] := by
  cases c with
  | code address words d =>
    rw [List.mem_singleton.1 member]
    exact filled
  | data address words =>
    obtain ⟨segment, inside, member⟩ := List.mem_flatMap.1 member
    cases segment with
    | words ws => exact ImageData.ne_nil_rows member
    | string chars isZero =>
      have long := (ImageData.string_segments inside).2
      rw [List.mem_singleton.1 member, ← List.length_pos_iff]
      simp only [ImageData.Segment.data, ImageData.minString, List.length_append] at long ⊢
      omega

section

variable {words : List UInt16}

theorem index_label {t : Nat} {kind : Transfer}
    (shown : (ofWords words).labels.getD t none = some kind) :
    ∃ before ws d after, (ofWords words).chunks = before ++ .code t ws d :: after ∧
      Entry.index (ofWords words).lines (labelName t kind) =
        (before.flatMap Chunk.rows).length := by
  obtain ⟨ws, d, member⟩ := label_chunk shown
  have label : (ofWords words).label? t = some (labelName t kind) := by
    rw [label?, shown, Option.map_some]
  have marked := Entry.index_marks (names_of_label member label 1)
  obtain ⟨before, ws, d, after, split, place⟩ := marks_entries marked
  exact ⟨before, ws, d, after, split, place.trans (Nat.zero_add _)⟩

theorem defined_lines (words : List UInt16) : Entry.Defined (ofWords words).lines := by
  intro kind name member
  obtain ⟨a, ws, d, -, named⟩ := transfer_of_entry member
  obtain ⟨b, v, -, -, label⟩ := transfer_cases named
  obtain ⟨kind', shown, -⟩ := label_cases label
  obtain ⟨ws', d', inside⟩ := label_chunk shown
  exact names_of_label inside label 1

theorem offset_code {before after : List Chunk} {a : Nat} {ws : List UInt16} {d : Decoded}
    (split : (ofWords words).chunks = before ++ .code a ws d :: after) :
    Layout.offset (ofWords words).rows (before.flatMap Chunk.rows).length = a := by
  have follow := (cuts_chunks words).follow
  rw [split] at follow
  have place : a = _ := follow.address_eq
  rw [offset_place split, place]
  omega

theorem offset_label {t : Nat} {name : String} (shown : (ofWords words).label? t = some name) :
    Layout.offset (ofWords words).rows (Entry.index (ofWords words).lines name) = t := by
  obtain ⟨kind, label, rfl⟩ := label_cases shown
  obtain ⟨before, ws, d, after, split, place⟩ := index_label label
  rw [place, offset_code split]

variable (fits : words.length ≤ addressSpace)
  (long : ∀ a ws d v, .code a ws d ∈ (ofWords words).chunks → .word v ∈ d.arguments →
    Field.maxLiteral < v)

include long

theorem isShortest_code {a : Nat} {ws : List UInt16} {d : Decoded}
    (member : .code a ws d ∈ (ofWords words).chunks) :
    ∀ b ∈ d.arguments, b.isShortest = true := by
  intro b inside
  have fits := (cuts_chunks words).arguments_fit member b inside
  cases b with
  | word v => exact decide_eq_true (long a ws d v member inside)
  | short v => exact fits
  | _ => rfl

theorem decoded_transfer {a : Nat} {ws : List UInt16} {d : Decoded} {kind : Transfer}
    {name : String} (member : .code a ws d ∈ (ofWords words).chunks)
    (named : (ofWords words).transfer? d = some (kind, name)) :
    ∃ t, (ofWords words).label? t = some name ∧ t < addressSpace ∧
      d = kind.decoded (.ofPosition false (some t)) := by
  obtain ⟨b, v, rfl, literal, label⟩ := transfer_cases named
  have inside : b ∈ (kind.decoded b).arguments := by
    cases kind <;> simp [Transfer.decoded, Decoded.arguments]
  have shortest := isShortest_code long member b inside
  refine ⟨v.toNat, label, v.toNat_lt, congrArg kind.decoded ?_⟩
  rw [Argument.ofPosition, UInt16.ofNat_toNat]
  cases b with
  | word w =>
    cases literal
    have large : ¬ v ≤ Field.maxLiteral := by simpa [Argument.isShortest] using shortest
    simp [large]
  | short w =>
    cases literal
    have small : v ≤ Field.maxLiteral := by simpa [Argument.isShortest] using shortest
    simp [small]
  | _ => cases literal

end

/-! Parts. -/

theorem getElem_flatMap {α β : Type} {f : α → List β} {l : List α} {i : Nat} {b : β}
    (found : (l.flatMap f)[i]? = some b) : ∃ before a after k, l = before ++ a :: after ∧
      i = (before.flatMap f).length + k ∧ (f a)[k]? = some b := by
  induction l generalizing i with
  | nil => cases found
  | cons a rest ih =>
    rw [List.flatMap_cons, List.getElem?_append] at found
    split at found
    · exact ⟨[], a, rest, i, rfl, (Nat.zero_add i).symm, found⟩
    · rename_i outside
      obtain ⟨before, a', after, k, rfl, place, here⟩ := ih found
      refine ⟨a :: before, a', after, k, rfl, ?_, here⟩
      rw [List.flatMap_cons, List.length_append]
      omega

def layout (p : Plan) : List Layout.Part := Entry.parts (Entry.index p.lines) p.lines

theorem layout_eq (p : Plan) : p.layout = p.chunks.flatMap (p.parts (Entry.index p.lines)) :=
  p.parts_entries _ 1 p.chunks

theorem part_code {p : Plan} {d : Decoded} {index : String → Nat} {kind : Transfer} {j : Nat} :
    (p.codeEntry d).part index = .transfer kind j ↔
      ∃ name, p.transfer? d = some (kind, name) ∧ j = index name := by
  simp only [Entry.part_eq_transfer, codeEntry_eq_transfer]

theorem transfer_of_short {p : Plan} {d : Decoded} {t : Nat}
    (short : p.shortTarget? d = some t) : ∃ kind name, p.transfer? d = some (kind, name) := by
  unfold shortTarget? at short
  split at short
  · split at short
    · rename_i v shown
      obtain ⟨name, label⟩ := Option.isSome_iff_exists.1 shown
      exact ⟨.call, name, by simp [transfer?, Argument.literal?, label]⟩
    · cases short
  · split at short
    · rename_i v shown
      obtain ⟨name, label⟩ := Option.isSome_iff_exists.1 shown
      exact ⟨.jump, name, by simp [transfer?, Argument.literal?, label]⟩
    · cases short
  · cases short

theorem shortTarget_decoded {p : Plan} {t : Nat} {name : String} (label : p.label? t = some name)
    (bound : t < addressSpace) (kind : Transfer) :
    p.shortTarget? (kind.decoded (.ofPosition false (some t))) =
      if t ≤ Field.maxLiteral.toNat then some t else none := by
  have value : (UInt16.ofNat t).toNat = t := by
    rw [UInt16.toNat_ofNat']
    exact Nat.mod_eq_of_lt bound
  have reach : UInt16.ofNat t ≤ Field.maxLiteral ↔ t ≤ Field.maxLiteral.toNat := by
    rw [UInt16.le_iff_toNat_le, value]
  by_cases reached : t ≤ Field.maxLiteral.toNat
  · have short : Argument.ofPosition false (some t) = .short (.ofNat t) := by
      simp [Argument.ofPosition, reach, reached]
    rw [short, if_pos reached]
    cases kind <;> simp [Transfer.decoded, shortTarget?, value, label]
  · have long : Argument.ofPosition false (some t) = .word (.ofNat t) := by
      simp [Argument.ofPosition, reach, reached]
    rw [long, if_neg reached]
    cases kind <;> rfl

section

variable {words : List UInt16}

theorem layout_code {a : Nat} {ws : List UInt16} {d : Decoded}
    (member : .code a ws d ∈ (ofWords words).chunks) :
    ∃ i, (ofWords words).layout[i]? =
        some (((ofWords words).codeEntry d).part (Entry.index (ofWords words).lines)) ∧
      Layout.offset (ofWords words).rows i = a := by
  obtain ⟨before, after, split⟩ := List.append_of_mem member
  refine ⟨(before.flatMap Chunk.rows).length, ?_, offset_code split⟩
  rw [layout_eq, split, List.flatMap_append,
    List.getElem?_append_right (Nat.le_of_eq (length_place _ _ before)), length_place, Nat.sub_self]
  rfl

theorem code_layout {i j : Nat} {kind : Transfer}
    (here : (ofWords words).layout[i]? = some (.transfer kind j)) :
    ∃ ws d name, .code (Layout.offset (ofWords words).rows i) ws d ∈ (ofWords words).chunks ∧
      (ofWords words).transfer? d = some (kind, name) ∧
      j = Entry.index (ofWords words).lines name := by
  rw [layout_eq] at here
  obtain ⟨before, c, after, k, split, place, found⟩ := getElem_flatMap here
  cases c with
  | data a ws =>
    rw [parts, List.getElem?_map, Option.map_eq_some_iff] at found
    obtain ⟨_, -, same⟩ := found
    cases same
  | code a ws d =>
    rw [parts, List.getElem?_singleton] at found
    split at found
    · rename_i first
      obtain ⟨name, named, rfl⟩ := part_code.1 (Option.some.inj found)
      refine ⟨ws, d, name, ?_, named, rfl⟩
      rw [place, first, Nat.add_zero, length_place, offset_code split, split]
      exact List.mem_append_right _ List.mem_cons_self
    · cases found

variable (fits : words.length ≤ addressSpace)
  (long : ∀ a ws d v, .code a ws d ∈ (ofWords words).chunks → .word v ∈ d.arguments →
    Field.maxLiteral < v)

include long

theorem encode_parts {c : Chunk} (member : c ∈ (ofWords words).chunks) :
    ((ofWords words).parts (Entry.index (ofWords words).lines) c).map
      (Layout.Part.encode false fun j => some (Layout.offset (ofWords words).rows j)) = c.rows := by
  cases c with
  | data a ws =>
    rw [parts, List.map_map]
    exact List.map_id _
  | code a ws d =>
    have encoded : ws = d.words := (cuts_chunks words).fits _ member
    rw [parts, List.map_singleton, Chunk.rows, encoded]
    congr 1
    unfold codeEntry
    split
    · rename_i kind name named
      obtain ⟨t, label, -, same⟩ := decoded_transfer long member named
      rw [Entry.part, Layout.Part.encode, offset_label label, ← same]
    · rfl

include fits

theorem images_ofWords : Layout.Images (ofWords words).layout (ofWords words).rows := by
  have cuts := cuts_chunks words
  refine ⟨?_, ?_, ?_, ?_⟩
  · intro kind j member
    obtain ⟨i, here⟩ := List.getElem?_of_mem member
    obtain ⟨ws, d, name, inside, named, rfl⟩ := code_layout here
    obtain ⟨t, label, -, -⟩ := decoded_transfer long inside named
    obtain ⟨kind', shown, rfl⟩ := label_cases label
    obtain ⟨before, ws', d', after, split, place⟩ := index_label shown
    rw [place, layout_eq, length_place, split, List.flatMap_append, List.length_append]
    simp [Chunk.rows]
  · intro row member
    obtain ⟨c, inside, member⟩ := List.mem_flatMap.1 member
    obtain ⟨before, after, split⟩ := List.append_of_mem inside
    have follow := cuts.follow
    rw [split] at follow
    exact ne_nil_chunk follow.words_ne_nil member
  · rw [layout_eq, List.map_flatMap]
    exact List.flatMap_congr fun c member => encode_parts long member
  · rw [rows, flatten_chunks, cuts.covers]
    exact fits

omit fits in
theorem layout_short {a : Nat} {ws : List UInt16} {d : Decoded} {t : Nat}
    (member : .code a ws d ∈ (ofWords words).chunks)
    (short : (ofWords words).shortTarget? d = some t) :
    ∃ i kind j, (ofWords words).layout[i]? = some (.transfer kind j) ∧
      Layout.offset (ofWords words).rows i = a ∧ Layout.offset (ofWords words).rows j = t ∧
      t ≤ Field.maxLiteral.toNat := by
  obtain ⟨kind, name, named⟩ := transfer_of_short short
  obtain ⟨t', label, bound, same⟩ := decoded_transfer long member named
  rw [same, shortTarget_decoded label bound] at short
  split at short
  · rename_i reached
    cases short
    obtain ⟨i, here, place⟩ := layout_code member
    rw [part_code.2 ⟨name, named, rfl⟩] at here
    exact ⟨i, kind, _, here, place, offset_label label, reached⟩
  · cases short

omit fits in
theorem short_layout {i j : Nat} {kind : Transfer}
    (here : (ofWords words).layout[i]? = some (.transfer kind j))
    (reached : Layout.offset (ofWords words).rows j ≤ Field.maxLiteral.toNat) :
    ∃ ws d, .code (Layout.offset (ofWords words).rows i) ws d ∈ (ofWords words).chunks ∧
      (ofWords words).shortTarget? d = some (Layout.offset (ofWords words).rows j) := by
  obtain ⟨ws, d, name, member, named, rfl⟩ := code_layout here
  obtain ⟨t, label, bound, same⟩ := decoded_transfer long member named
  rw [offset_label label] at reached ⊢
  refine ⟨ws, d, member, ?_⟩
  rw [same, shortTarget_decoded label bound, if_pos reached]

theorem widens_ofWords (room : ∀ t, ((ofWords words).label? t).isSome = true →
      t + (ofWords words).widened.countP (· < t) < addressSpace) :
    Layout.Widens (ofWords words).layout (ofWords words).rows (ofWords words).widened := by
  have follow : Chunk.Follow 0 (ofWords words).chunks := (cuts_chunks words).follow
  have images := images_ofWords fits long
  refine ⟨nodup_widened follow, ?_, ?_, ?_⟩
  · intro w member
    obtain ⟨ws, d, t, inside, short⟩ := code_of_widened follow member
    obtain ⟨i, kind, j, here, rfl, rfl, reached⟩ := layout_short long inside short
    exact ⟨i, kind, j, here, reached, rfl⟩
  · intro i kind j here reached
    obtain ⟨ws, d, inside, short⟩ := short_layout long here reached
    rw [mem_widened_iff follow inside short,
      images.offset_lt_iff (List.getElem?_eq_some_iff.1 here).1]
  · intro i kind j here
    obtain ⟨ws, d, name, inside, named, rfl⟩ := code_layout here
    obtain ⟨t, label, -, -⟩ := decoded_transfer long inside named
    rw [offset_label label]
    exact room t (by rw [label]; rfl)

end

end Plan

end WordAsm.Disassembly
