import WordAsm.Proofs.LayoutLineNumbers
import WordAsm.Proofs.LayoutPasses
import WordAsm.Proofs.SourceEntries

/-!
Sources that need no second look. A source of labels with different names and of statements that
give the same words in every pass is laid out by the first finalizing pass, and its words are those
of the statements.
-/
namespace WordAsm

namespace Layout

section

variable {optimize : Bool} {slots : List Slot} {given : List (List UInt16)}

theorem gives_of_pass
    (gives : List.Forall₂ (fun slot words => slot.statement.Gives optimize words) slots given)
    (symbols : Symbols) (finalize : Bool) :
    ∃ changed, (pass optimize symbols finalize slots).outcome = .ok changed ∧
      List.Forall₂ (fun slot words => slot.statement.Gives optimize words)
        (pass optimize symbols finalize slots).slots given ∧
      (pass optimize symbols finalize slots).slots.map Slot.words = given.map some ∧
      (slots.map Slot.words = given.map some → changed = false) := by
  have length := gives.length_eq
  have each {i : Nat} (bound : i < slots.length) (bound' : i < given.length) :
      slots[i].statement.Gives optimize given[i] := gives.get bound bound'
  cases outcome : (pass optimize symbols finalize slots).outcome with
  | error failure =>
    obtain ⟨new, i, slot, found, -, -, -, error⟩ := failed_of_pass outcome
    obtain ⟨bound, rfl⟩ := List.getElem?_eq_some_iff.1 found
    have emitted := Statement.emit_gives (each bound (by omega))
    rw [emission, (emitted _ _ _).1] at error
    cases error
  | ok changed =>
    obtain ⟨passes, same⟩ := passes_of_pass outcome
    have left : List.Forall₂ (fun slot words => slot.statement.Gives optimize words ∧
        slot.words = some words) (pass optimize symbols finalize slots).slots given := by
      refine List.forall₂_iff_get.2 ⟨passes.length.trans length, ?_⟩
      intro i bound bound'
      have inside : i < slots.length := by rwa [← passes.length]
      obtain ⟨words, emitted, kept⟩ := passes.emitted (List.getElem?_eq_getElem inside)
      have steady := Statement.emit_gives (each inside bound')
      rw [emission, (steady _ _ _).1] at emitted
      cases emitted
      rw [List.getElem?_eq_getElem bound, Option.some.injEq] at kept
      simp only [List.get_eq_getElem, kept]
      exact ⟨(steady _ _ _).2, trivial⟩
    have words : (pass optimize symbols finalize slots).slots.map Slot.words = given.map some := by
      rw [← List.forall₂_eq_eq_eq, List.forall₂_map_left_iff, List.forall₂_map_right_iff]
      exact left.imp fun _ _ both => both.2
    refine ⟨changed, rfl, left.imp fun _ _ both => both.1, words, ?_⟩
    intro unchanged
    exact same (words.trans unchanged.symm)

theorem gives_of_run {o : Options} {statements : List Statement}
    (gives : List.Forall₂ (fun st words => st.Gives o.optimize words) statements given)
    (symbols : Symbols) :
    (run o symbols statements).failure = none ∧
      (run o symbols statements).slots.map Slot.words = given.map some := by
  have start : List.Forall₂ (fun slot words => slot.statement.Gives o.optimize words)
      (start statements) given := by
    rw [Layout.start, List.forall₂_map_left_iff]
    exact gives
  obtain ⟨first, passed, steady, words, -⟩ := gives_of_pass start symbols false
  obtain ⟨second, passed', -, words', unchanged⟩ := gives_of_pass steady symbols true
  rw [unchanged words] at passed'
  obtain ⟨count, allowed⟩ : ∃ count, o.passes = count + 1 := by
    refine Nat.exists_eq_succ_of_ne_zero ?_
    unfold Options.passes Options.defaultPasses
    split <;> omega
  simp only [run, passed, allowed, settle, passed', Bool.false_eq_true, if_false]
  exact ⟨trivial, words'⟩

end

end Layout

theorem assemble_gives {o : Options} {file source : String} {work : Work}
    (read : preprocess o file source = (work, none)) {given : List (List UInt16)}
    (gives : List.Forall₂ (fun st words => st.Gives o.optimize words) work.statements.reverse
      given) :
    ∃ program, (assemble o file source).outcome = .ok program ∧ program.words = given.flatten := by
  obtain ⟨settled, words⟩ := Layout.gives_of_run gives work.symbols
  have work' : (preprocess o file source).1 = work := by rw [read]
  rw [← work'] at settled words
  refine ⟨_, assemble_of_settled (by rw [read]) settled, ?_⟩
  rw [Program.words_ofSlots, words, List.flatMap_map]
  exact List.flatMap_id

theorem Entry.gives_of_reads {optimize : Bool} {entries : List Entry}
    (steady : ∀ e ∈ entries, e.IsSteady optimize) {statements : List Statement}
    (reads : List.Forall₂ (Entry.Reads optimize) (entries.filter Entry.isStatement) statements) :
    List.Forall₂ (fun st words => st.Gives optimize words) statements
      (entries.filterMap Entry.words?) := by
  induction entries generalizing statements with
  | nil =>
    cases reads
    exact .nil
  | cons e rest ih =>
    obtain ⟨here, later⟩ := List.forall_mem_cons.1 steady
    cases e with
    | label name => exact ih later reads
    | statement first operands words =>
      cases reads with
      | cons gives reads => exact .cons gives (ih later reads)
    | transfer kind name => exact here.elim

/-- Such a source assembles to the words of its statements. -/
theorem assemble_entries {o : Options} {file source : String} {entries : List Entry}
    (tokenized : Tokenizer.tokenize file source =
      ⟨Tokenizer.linesFrom file 1 (entries.map Entry.tokens), none⟩)
    (steady : ∀ e ∈ entries, e.IsSteady o.optimize)
    (distinct : ((entries.filterMap Entry.name?).map Text.upper).Nodup)
    (enough : entries.length + 2 ≤ o.lineLimit) :
    ∃ program, (assemble o file source).outcome = .ok program ∧
      program.words = (entries.filterMap Entry.words?).flatten := by
  obtain ⟨work, read, takes⟩ := preprocess_entries tokenized
    (fun e member => (steady e member).isReadable) distinct enough
  obtain ⟨statements, left, reads⟩ := takes.statements
  have order : work.statements.reverse = statements := by
    rw [left]
    simp
  exact assemble_gives read (by rw [order]; exact Entry.gives_of_reads steady reads)

end WordAsm
