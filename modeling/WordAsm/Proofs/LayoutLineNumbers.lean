import WordAsm.Proofs.LayoutFixedPoint
import WordAsm.Proofs.LineNumbers

/-!
Layout does not depend on line numbers: statements that differ in them alone become the same words
at the same positions, or cannot be laid out either way.
-/
namespace WordAsm

section

variable (ctx : Context) (line : Line) (position : Int)

theorem Context.evaluate_bare (tree : Expr) :
    ctx.evaluate line.bare tree = ctx.evaluate line tree := by
  have resolver : ctx.symbols.labelsOn ctx.position ctx.finalize line.bare =
    ctx.symbols.labelsOn ctx.position ctx.finalize line := rfl
  rw [evaluate, evaluate, resolver]

theorem Operand.field_bare (o : Operand) : o.field ctx line.bare = o.field ctx line := by
  cases o with
  | fixed => rfl
  | expression raw tree last latched => simp only [field, ctx.evaluate_bare]

theorem BasicOperation.fields_bare (i : BasicOperation) :
    i.fields ctx line.bare = i.fields ctx line := by
  simp only [fields, Operand.field_bare]

theorem BasicOperation.encode_bare (i : BasicOperation) :
    i.encode ctx line.bare = i.encode ctx line := by
  simp only [encode, fields_bare]

theorem BasicOperation.substitute_bare (depth : Nat) (replacing : Option BasicOp)
    (i : BasicOperation) :
    i.substitute ctx line.bare position depth replacing =
      i.substitute ctx line position depth replacing := by
  induction depth generalizing i replacing with
  | zero => rfl
  | succ depth ih => simp only [substitute, fields_bare, ih]

theorem Instruction.emit_bare (optimize : Bool) (i : Instruction) :
    (i.emit optimize ctx line.bare position).1 = (i.emit optimize ctx line position).1 ∧
      (i.emit optimize ctx line.bare position).2.1 = (i.emit optimize ctx line position).2.1 := by
  cases i with
  | special written =>
    have field := written.a.field_bare ctx line
    simp only [emit, SpecialOperation.encode, field, and_self]
  | basic written used =>
    cases optimize with
    | false => simp only [emit, emitBasic_plain, BasicOperation.encode_bare,
        BasicOperation.fields_bare, and_self]
    | true =>
      simp only [emit, emitBasic_optimized, BasicOperation.encode_bare, BasicOperation.fields_bare,
        BasicOperation.substitute_bare]
      split <;> exact ⟨rfl, rfl⟩

theorem DataItem.emitAll_bare (items : List DataItem) :
    emitAll ctx line.bare items = emitAll ctx line items := by
  induction items with
  | nil => rfl
  | cons item rest ih =>
    have here : item.emit ctx line.bare = item.emit ctx line := by
      cases item with
      | string => rfl
      | value tree last raw => simp only [emit, ctx.evaluate_bare]
    simp only [emitAll, here, ih]

theorem Fill.emit_bare (old : Option Nat) (f : Fill) :
    (f.emit ctx line.bare old).1 = (f.emit ctx line old).1 ∧
      (f.emit ctx line.bare old).2.1 = (f.emit ctx line old).2.1 := by
  have value (tree : Expr) : evaluate ctx line.bare tree = evaluate ctx line tree := by
    simp only [evaluate, ctx.evaluate_bare]
  have size (n : Nat) : (settle ctx line.bare old n).1 = (settle ctx line old n).1 := by
    unfold settle
    split
    · split <;> rfl
    · rfl
  simp only [emit, value, size]
  split
  · exact ⟨rfl, rfl⟩
  · split
    · exact ⟨rfl, rfl⟩
    · split
      · exact ⟨rfl, rfl⟩
      · split <;> exact ⟨rfl, rfl⟩

theorem Statement.emit_bare (optimize : Bool) (old : Option Nat) (st : Statement) :
    (st.bare.emit optimize ctx position old).outcome =
        (st.emit optimize ctx position old).outcome ∧
      (st.bare.emit optimize ctx position old).statement =
        (st.emit optimize ctx position old).statement.bare := by
  obtain ⟨line, body⟩ := st
  cases body with
  | instruction i =>
    obtain ⟨outcome, left⟩ := i.emit_bare ctx line position optimize
    simp only [bare, emit, outcome, left, and_self]
  | data d =>
    simp only [bare, emit, Data.emit, DataItem.emitAll_bare, and_self]
  | fill f =>
    obtain ⟨outcome, left⟩ := f.emit_bare ctx line old
    simp only [bare, emit, outcome, left, and_self]
  | align a =>
    have same : a.emit ctx line.bare position old = a.emit ctx line position old := by
      simp only [Align.emit, ctx.evaluate_bare]
    simp only [bare, emit, same, and_self]

end

def Slot.bare (slot : Slot) : Slot := { slot with statement := slot.statement.bare }

theorem Slot.words_bare (slots : List Slot) :
    (slots.map bare).map Slot.words = slots.map Slot.words := by
  rw [List.map_map]
  rfl

namespace Layout

section

variable (optimize : Bool) (symbols : Symbols)

theorem passFrom_bare (finalize : Bool) (done : List Slot) (pos : Nat) (changed : Bool)
    (rest : List Slot) :
    let p := passFrom optimize symbols finalize done pos changed rest
    let p' := passFrom optimize symbols finalize (done.map Slot.bare) pos changed
      (rest.map Slot.bare)
    p'.outcome.toOption = p.outcome.toOption ∧ p'.slots = p.slots.map Slot.bare := by
  induction rest generalizing done pos changed with
  | nil => simp [passFrom]
  | cons slot rest ih =>
    have places : positionAmong (done.map Slot.bare) ((slot :: rest).map Slot.bare) =
        positionAmong done (slot :: rest) := by
      funext j
      rw [positionAmong_eq, positionAmong_eq, ← List.map_reverse, ← List.map_append,
        position_congr (Slot.words_bare _)]
    obtain ⟨outcome, left⟩ := slot.statement.emit_bare
      ⟨symbols, positionAmong done (slot :: rest), finalize⟩ pos optimize
      (slot.words.map List.length)
    have words : slot.bare.words = slot.words := rfl
    have statement : slot.bare.statement = slot.statement.bare := rfl
    simp only [passFrom, List.map_cons, words, statement] at places ⊢
    rw [places, outcome, left]
    generalize slot.statement.emit optimize ⟨symbols, positionAmong done (slot :: rest), finalize⟩
      pos (slot.words.map List.length) = e
    cases e.outcome with
    | error fault =>
      refine ⟨rfl, ?_⟩
      simp only [List.map_append, List.map_reverse, List.map_cons]
      rfl
    | ok words =>
      exact ih (⟨e.statement, some words⟩ :: done) (pos + words.length)
        (changed || slot.words != some words)

theorem settle_bare (count left : Nat) (slots : List Slot) :
    let s := settle optimize symbols count left slots
    let s' := settle optimize symbols count left (slots.map Slot.bare)
    s'.failure.isSome = s.failure.isSome ∧ s'.slots = s.slots.map Slot.bare := by
  induction left generalizing count slots with
  | zero => exact ⟨rfl, rfl⟩
  | succ left ih =>
    obtain ⟨outcome, left'⟩ := passFrom_bare optimize symbols true [] 0 false slots
    change (pass optimize symbols true (slots.map Slot.bare)).outcome.toOption =
      (pass optimize symbols true slots).outcome.toOption at outcome
    change (pass optimize symbols true (slots.map Slot.bare)).slots =
      (pass optimize symbols true slots).slots.map Slot.bare at left'
    simp only [settle]
    cases here : (pass optimize symbols true slots).outcome with
    | error failure =>
      cases here' : (pass optimize symbols true (slots.map Slot.bare)).outcome with
      | error failure' => exact ⟨rfl, left'⟩
      | ok changed' =>
        rw [here, here'] at outcome
        cases outcome
    | ok changed =>
      cases here' : (pass optimize symbols true (slots.map Slot.bare)).outcome with
      | error failure' =>
        rw [here, here'] at outcome
        cases outcome
      | ok changed' =>
        rw [here, here'] at outcome
        cases outcome
        simp only [left']
        split
        · exact ih _ _
        · exact ⟨rfl, rfl⟩

end

theorem run_bare (o : Options) (symbols : Symbols) (statements : List Statement) :
    let s := run o symbols statements
    let s' := run o symbols (statements.map Statement.bare)
    s'.failure.isSome = s.failure.isSome ∧ s'.slots = s.slots.map Slot.bare := by
  have begun : start (statements.map Statement.bare) = (start statements).map Slot.bare := by
    simp only [start, List.map_map]
    rfl
  obtain ⟨outcome, left⟩ := passFrom_bare o.optimize symbols false [] 0 false (start statements)
  change (pass o.optimize symbols false ((start statements).map Slot.bare)).outcome.toOption =
    (pass o.optimize symbols false (start statements)).outcome.toOption at outcome
  change (pass o.optimize symbols false ((start statements).map Slot.bare)).slots =
    (pass o.optimize symbols false (start statements)).slots.map Slot.bare at left
  simp only [run, begun]
  cases here : (pass o.optimize symbols false (start statements)).outcome with
  | error failure =>
    cases here' : (pass o.optimize symbols false ((start statements).map Slot.bare)).outcome with
    | error failure' => exact ⟨rfl, left⟩
    | ok changed' =>
      rw [here, here'] at outcome
      cases outcome
  | ok changed =>
    cases here' : (pass o.optimize symbols false ((start statements).map Slot.bare)).outcome with
    | error failure' =>
      rw [here, here'] at outcome
      cases outcome
    | ok changed' =>
      simp only [left]
      exact settle_bare o.optimize symbols 0 o.passes _

end Layout

namespace Program

theorem words_ofSlots (symbols : Symbols) (slots : List Slot) :
    (ofSlots symbols slots).words = (slots.map Slot.words).flatMap (·.getD []) := by
  have listed (position : Nat) : (list position slots).flatMap Listed.words =
      (slots.map Slot.words).flatMap (·.getD []) := by
    induction slots generalizing position with
    | nil => rfl
    | cons slot rest ih => simp only [list, List.flatMap_cons, List.map_cons, ih]
  exact listed 0

/-- The words and labels of a program that can be laid out. -/
def image? (o : Options) (w : Work) : Option (List UInt16 × List (String × Int64)) :=
  let settled := Layout.run o w.symbols w.statements.reverse
  if settled.failure.isSome then none
  else some ((ofSlots w.symbols settled.slots).words, (ofSlots w.symbols settled.slots).labels)

theorem image_of_assemble {o : Options} {file source : String} {w : Work}
    (read : preprocess o file source = (w, none)) :
    (assemble o file source).outcome.toOption.map (fun p => (p.words, p.labels)) = image? o w := by
  simp only [assemble, read, image?]
  cases (Layout.run o w.symbols w.statements.reverse).failure with
  | some failure => rfl
  | none => rfl

theorem image_bare (o : Options) (w : Work) :
    image? o { w with statements := w.statements.map Statement.bare } = image? o w := by
  obtain ⟨failure, left⟩ := Layout.run_bare o w.symbols w.statements.reverse
  have words := Slot.words_bare (Layout.run o w.symbols w.statements.reverse).slots
  have labels : (ofSlots w.symbols ((Layout.run o w.symbols w.statements.reverse).slots.map
      Slot.bare)).labels =
      (ofSlots w.symbols (Layout.run o w.symbols w.statements.reverse).slots).labels := by
    simp only [ofSlots, placed, Layout.position_congr words]
  simp only [image?, ← List.map_reverse, failure, left, words_ofSlots, words, labels]

/-- Work that differs in line numbers gives the same words and labels. -/
theorem image_alike {o : Options} {w w' : Work} (same : w.Alike w') : image? o w' = image? o w := by
  rw [← image_bare o w, ← image_bare o w']
  simp only [image?, same.symbols, same.statements]

end Program

end WordAsm
