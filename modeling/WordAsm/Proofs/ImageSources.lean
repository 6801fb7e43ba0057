import WordAsm.Proofs.ImageLayout
import WordAsm.Proofs.PreprocessStep

/-!
Sources of entries beside an image that holds a row of words for each statement. Such a source can
be assembled, and whether it gives the image is a question of how far later labels seem to be.
-/
namespace WordAsm

namespace Entry

/-- The part of a statement, where labels mark the statements with these indices. -/
def part (index : String → Nat) : Entry → Layout.Part
  | label _ => .words []
  | statement _ _ words => .words words
  | transfer kind name => .transfer kind (index name)

theorem part_eq_transfer {index : String → Nat} {e : Entry} {kind : Transfer} {j : Nat} :
    e.part index = .transfer kind j ↔ ∃ name, e = .transfer kind name ∧ j = index name := by
  cases e <;> simp [part, eq_comm]

/-- The parts of the statements among entries. -/
def parts (index : String → Nat) (entries : List Entry) : List Layout.Part :=
  (entries.filter isStatement).map (part index)

theorem parts_append (index : String → Nat) (entries later : List Entry) :
    parts index (entries ++ later) = parts index entries ++ parts index later := by
  rw [parts, List.filter_append, List.map_append]
  rfl

theorem marks_append (start : Nat) (entries later : List Entry) :
    marks start (entries ++ later) =
      marks start entries ++ marks (start + (entries.filter isStatement).length) later := by
  induction entries generalizing start with
  | nil => rfl
  | cons e rest ih =>
    cases e with
    | label name =>
      rw [List.cons_append, marks, ih]
      rfl
    | _ =>
      rw [List.cons_append, marks, ih, List.filter_cons_of_pos rfl, List.length_cons, Nat.add_assoc,
        Nat.add_comm 1]
      · rfl
      · simp

def index (entries : List Entry) (name : String) : Nat := ((marks 0 entries).lookup name).getD 0

theorem index_marks {entries : List Entry} {name : String}
    (defined : name ∈ entries.filterMap name?) : (name, index entries name) ∈ marks 0 entries := by
  rw [← fst_marks 0] at defined
  obtain ⟨mark, member, same⟩ := List.mem_map.1 defined
  have known : ((marks 0 entries).lookup name).isSome = true :=
    List.lookup_isSome_iff.2 ⟨mark, member, by simp [same]⟩
  obtain ⟨j, found⟩ := Option.isSome_iff_exists.1 known
  obtain ⟨before, after, split, -⟩ := List.lookup_eq_some_iff.1 found
  rw [index, found, Option.getD_some, split]
  exact List.mem_append_right _ List.mem_cons_self

def Defined (entries : List Entry) : Prop :=
  ∀ kind name, .transfer kind name ∈ entries → name ∈ entries.filterMap name?

section

variable {entries : List Entry} {statements : List Statement}
  (reads : List.Forall₂ (Reads false) (entries.filter isStatement) statements)

include reads

theorem hold_reads (readable : ∀ e ∈ entries, e.IsReadable false) (defined : Defined entries)
    {symbols : Symbols} (labels : ∀ mark ∈ marks 0 entries,
      symbols.labels[Text.upper mark.1]? = some ⟨mark.2, 0⟩) :
    Layout.Hold symbols (parts (index entries) entries) (Layout.start statements) := by
  rw [Layout.Hold, parts, Layout.start, List.forall₂_map_left_iff, List.forall₂_map_right_iff]
  have members := (List.forall₂_and_left _ _).2 ⟨fun e (member : e ∈ _) => member, reads⟩
  refine members.imp fun e st both => ?_
  obtain ⟨member, read⟩ := both
  obtain ⟨inside, -⟩ := List.mem_filter.1 member
  cases e with
  | label name => exact read.elim
  | statement first operands words => exact read
  | transfer kind name =>
    have named : IsName name := readable _ inside
    have place := labels (name, index entries name) (index_marks (defined kind name inside))
    exact ⟨name, false, named, place, read⟩

theorem loose_reads (image : List (List UInt16)) :
    Layout.Loose (parts (index entries) entries) image (Layout.start statements) := by
  intro i kind j slot here _ found
  rw [parts, List.getElem?_map, Option.map_eq_some_iff] at here
  rw [Layout.start, List.getElem?_map, Option.map_eq_some_iff] at found
  obtain ⟨e, here, same⟩ := here
  obtain ⟨st, found, rfl⟩ := found
  obtain ⟨bound, rfl⟩ := List.getElem?_eq_some_iff.1 here
  obtain ⟨bound', rfl⟩ := List.getElem?_eq_some_iff.1 found
  obtain ⟨name, transfer, -⟩ := part_eq_transfer.1 same
  have read := reads.get bound bound'
  rw [List.get_eq_getElem, transfer] at read
  exact Statement.isLatched_goes read

end

end Entry

theorem assemble_image {o : Options} (plain : o.optimize = false) {file source : String}
    {entries : List Entry}
    (tokenized : Tokenizer.tokenize file source =
      ⟨Tokenizer.linesFrom file 1 (entries.map Entry.tokens), none⟩)
    (readable : ∀ e ∈ entries, e.IsReadable false)
    (distinct : ((entries.filterMap Entry.name?).map Text.upper).Nodup)
    (lines : entries.length + 2 ≤ o.lineLimit)
    (passes : 2 * (entries.filter Entry.isStatement).length + 3 ≤ o.passes)
    (defined : Entry.Defined entries) {image : List (List UInt16)}
    (images : Layout.Images (Entry.parts (Entry.index entries) entries) image) :
    ∃ program, (assemble o file source).outcome = .ok program ∧
      ∀ wide, Layout.Widens (Entry.parts (Entry.index entries) entries) image wide →
        (program.words = image.flatten ↔ ∀ i kind j,
          (Entry.parts (Entry.index entries) entries)[i]? = some (.transfer kind j) → i < j →
          Layout.offset image j ≤ Field.maxLiteral.toNat → Layout.offset image j +
            wide.countP (fun w => Layout.offset image i ≤ w && w < Layout.offset image j) ≤
              Field.maxLiteral.toNat) := by
  obtain ⟨work, read, takes⟩ :=
    preprocess_entries tokenized (by rw [plain]; exact readable) distinct lines
  rw [plain] at takes
  obtain ⟨statements, left, reads⟩ := takes.statements
  have order : work.statements.reverse = statements := by
    rw [left]
    simp
  have hold := Entry.hold_reads reads readable defined takes.marked
  have fresh (st : Statement) (member : st ∈ statements) : st.fresh.IsRead := by
    have found : st ∈ (preprocess o file source).1.statements := by
      rw [read, ← List.mem_reverse, order]
      exact member
    have isRead := statements_isRead o file source st found
    rwa [Statement.fresh_of_isRead isRead]
  have few : statements.countP Statement.isInstruction ≤
      (entries.filter Entry.isStatement).length := by
    rw [reads.length_eq]
    exact List.countP_le_length
  have settled := hold.run plain images.closed fresh (by omega)
  have iff (wide : List Nat)
      (widens : Layout.Widens (Entry.parts (Entry.index entries) entries) image wide) :=
    images.words_eq_iff plain widens hold (Entry.loose_reads reads image) settled
  have work' : (preprocess o file source).1 = work := by rw [read]
  rw [← order, ← work'] at settled iff
  exact ⟨_, assemble_of_settled (by rw [read]) settled, iff⟩

end WordAsm
