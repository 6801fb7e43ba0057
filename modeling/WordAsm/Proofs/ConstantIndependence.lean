import WordAsm.Proofs.EmittedTrees
import WordAsm.Proofs.LabelValues
import WordAsm.Proofs.LineEffects
import WordAsm.Proofs.PreprocessRuns

/-!
Layout does not depend on constants. Reading a line puts in the constants of that time and answers
every question about definitions, so that the trees of a statement ask for labels only. Tables with
the same labels then lay statements out alike, and a definition has no effect on the lines before.
-/
namespace WordAsm

theorem Expr.simplify_of_isdefFree {resolver resolver' : Resolver ε}
    (symbols : resolver'.symbol = resolver.symbol)
    (calls : ∀ fn e, Text.alike fn "isdef" = false → resolver'.call fn e = resolver.call fn e)
    {e : Expr} (free : e.isdefFree = true) : e.simplify resolver' = e.simplify resolver := by
  induction e with
  | leaf text g => simp only [simplify, askSymbol, symbols]
  | number n g => rfl
  | unary op e g ih => simp only [simplify, ih free]
  | binary op l r g ihl ihr =>
    simp only [isdefFree, Bool.and_eq_true, Bool.not_eq_true'] at free
    obtain ⟨⟨unasked, freeLeft⟩, freeRight⟩ := free
    have asked : askCall resolver' op l r = askCall resolver op l r := by
      unfold askCall
      cases called : callee? op l with
      | none => rfl
      | some fn =>
        rw [called, Option.any_some] at unasked
        simp only [calls fn r unasked]
    simp only [simplify, asked, ihl freeLeft, ihr freeRight]
  | absent => rfl

theorem Context.agree_of_labels {s s' : Symbols} (labels : s'.labels = s.labels) {line : Line}
    {trees : List Expr} (free : ∀ tree ∈ trees, tree.isdefFree = true)
    (position : Nat → Option Nat) (finalize : Bool) :
    Agree line trees ⟨s, position, finalize⟩ ⟨s', position, finalize⟩ := by
  refine ⟨rfl, ?_⟩
  intro tree member
  have symbols : (s'.labelsOn position finalize line).symbol =
      (s.labelsOn position finalize line).symbol := by
    funext name
    simp only [Symbols.labelsOn, Symbols.labelValue, Symbols.find?, labels]
  have calls (fn : String) (e : Expr) (other : Text.alike fn "isdef" = false) :
      (s'.labelsOn position finalize line).call fn e =
        (s.labelsOn position finalize line).call fn e := by
    simp [Symbols.labelsOn, Symbols.call, other]
  simp only [evaluate, Expr.simplify_of_isdefFree symbols calls (free tree member)]

section

variable {s : Symbols} {line : Line}

theorem Operand.isdefFree_of_wellRead {o : Operand} (wellRead : o.WellRead) :
    ∀ tree ∈ o.trees, tree.isdefFree = true := by
  intro tree member
  cases o with
  | fixed code raw => cases member
  | expression raw tree' last latched =>
    rw [List.mem_singleton.1 member]
    exact wellRead

theorem Instruction.isdefFree_of_wellRead {i : Instruction} (wellRead : i.WellRead) :
    ∀ tree ∈ i.trees, tree.isdefFree = true := by
  intro tree member
  cases i with
  | basic written used =>
    rcases List.mem_append.1 member with first | second
    · exact Operand.isdefFree_of_wellRead wellRead.1 tree first
    · exact Operand.isdefFree_of_wellRead wellRead.2 tree second
  | special written => exact Operand.isdefFree_of_wellRead wellRead tree member

theorem DataItem.isdefFree_of_readAll {tokens : List String} {items : List DataItem}
    (read : readAll s line tokens = .ok items) :
    ∀ tree ∈ items.flatMap DataItem.trees, tree.isdefFree = true := by
  induction tokens generalizing items with
  | nil =>
    cases read
    intro tree member
    cases member
  | cons token rest ih =>
    obtain ⟨item, first, read⟩ := bind_ok read
    obtain ⟨later, below, same⟩ := bind_ok read
    cases same
    intro tree member
    rw [List.flatMap_cons] at member
    rcases List.mem_append.1 member with here | there
    · unfold DataItem.read at first
      split at first
      · split at first <;> cases first
        cases here
      · split at first
        · rename_i built
          cases first
          rw [List.mem_singleton.1 here]
          exact Symbols.isdefFree_of_build built
        · cases first
    · exact ih below tree there

theorem Fill.isdefFree_of_read {f : Fill} (read : Fill.read s line = .ok f) :
    ∀ tree ∈ f.length :: f.value.toList, tree.isdefFree = true := by
  intro tree member
  unfold Fill.read at read
  split at read
  · obtain ⟨length, first, same⟩ := bind_ok read
    cases same
    rw [List.mem_singleton.1 member]
    exact Symbols.isdefFree_of_build first
  · obtain ⟨length, first, read⟩ := bind_ok read
    obtain ⟨value, second, same⟩ := bind_ok read
    cases same
    rcases List.mem_cons.1 member with rfl | member
    · exact Symbols.isdefFree_of_build first
    · rw [List.mem_singleton.1 member]
      exact Symbols.isdefFree_of_build second
  · cases read

end

namespace Statement

theorem isdefFree_of_isRead {st : Statement} (read : st.fresh.IsRead) :
    ∀ tree ∈ st.trees, tree.isdefFree = true := by
  rw [← st.trees_fresh]
  obtain ⟨s, read⟩ := read
  have read := body_of_read read
  generalize st.fresh = st at read
  obtain ⟨line, body⟩ := st
  cases body with
  | instruction i =>
    rw [← Instruction.fresh_of_read read] at read
    exact Instruction.isdefFree_of_wellRead (Instruction.wellRead_of_read read).2
  | data d =>
    obtain ⟨items, readAll, same⟩ := bind_ok read
    have held : items = d.items := congrArg Data.items (Except.ok.inj same)
    rw [held] at readAll
    exact DataItem.isdefFree_of_readAll readAll
  | fill f => exact Fill.isdefFree_of_read read
  | align a =>
    intro tree member
    dsimp only at read
    unfold Align.read at read
    split at read
    · obtain ⟨boundary, built, same⟩ := bind_ok read
      cases same
      rw [List.mem_singleton.1 member]
      exact Symbols.isdefFree_of_build built
    · cases read

theorem emit_of_labels {st : Statement} (read : st.fresh.IsRead) {s s' : Symbols}
    (labels : s'.labels = s.labels) (optimize : Bool) (position : Nat → Option Nat)
    (finalize : Bool) (pos : Int) (old : Option Nat) :
    st.emit optimize ⟨s', position, finalize⟩ pos old =
      st.emit optimize ⟨s, position, finalize⟩ pos old :=
  emit_agree (Context.agree_of_labels labels (isdefFree_of_isRead read) position finalize)
    optimize pos old

end Statement

namespace Layout

/-- The slots hold statements that were read, whatever passes have left in them. -/
def AreRead (slots : List Slot) : Prop :=
  ∀ st ∈ slots.map fun slot => slot.statement.fresh, st.IsRead

section

variable {s s' : Symbols} {slots : List Slot}

theorem AreRead.pass (read : AreRead slots) (optimize : Bool) (symbols : Symbols)
    (finalize : Bool) : AreRead (Layout.pass optimize symbols finalize slots).slots := by
  rw [AreRead, Layout.pass, map_passFrom (Statement.fresh_emit optimize)]
  exact read

theorem areRead_start {statements : List Statement} (read : ∀ st ∈ statements, st.IsRead) :
    AreRead (start statements) := by
  intro st member
  simp only [start, List.map_map, List.mem_map, Function.comp_apply] at member
  obtain ⟨st', member, rfl⟩ := member
  rw [Statement.fresh_of_isRead (read st' member)]
  exact read st' member

theorem passFrom_of_labels (labels : s'.labels = s.labels) (optimize finalize : Bool)
    (done : List Slot) (pos : Nat) (changed : Bool) {rest : List Slot} (read : AreRead rest) :
    passFrom optimize s' finalize done pos changed rest =
      passFrom optimize s finalize done pos changed rest := by
  induction rest generalizing done pos changed with
  | nil => rfl
  | cons slot rest ih =>
    obtain ⟨first, later⟩ := List.forall_mem_cons.1 read
    simp only [passFrom, Statement.emit_of_labels first labels, ih _ _ _ later]

theorem pass_of_labels (labels : s'.labels = s.labels) (optimize finalize : Bool)
    (read : AreRead slots) : pass optimize s' finalize slots = pass optimize s finalize slots :=
  passFrom_of_labels labels optimize finalize [] 0 false read

theorem settle_of_labels (labels : s'.labels = s.labels) (optimize : Bool) (count left : Nat)
    (read : AreRead slots) :
    settle optimize s' count left slots = settle optimize s count left slots := by
  induction left generalizing count slots with
  | zero => rfl
  | succ left ih =>
    simp only [settle, pass_of_labels labels optimize true read, ih _ (read.pass optimize s true)]

theorem run_of_labels (labels : s'.labels = s.labels) (o : Options) {statements : List Statement}
    (read : ∀ st ∈ statements, st.IsRead) : run o s' statements = run o s statements := by
  have begun := areRead_start read
  have settled := settle_of_labels labels o.optimize 0 o.passes (begun.pass o.optimize s false)
  simp only [run, pass_of_labels labels o.optimize false begun, settled]

end

end Layout

theorem Program.ofSlots_of_labels {s s' : Symbols} (labels : s'.labels = s.labels)
    (slots : List Slot) : ofSlots s' slots = ofSlots s slots := by
  simp only [ofSlots, placed, labels]

def Line.isDefinition (line : Line) : Bool :=
  (Token.directive? line.first).any ["def", "define", "equ", "undef"].contains

theorem Symbols.labels_define (s : Symbols) (name : String) (value : Int64) :
    (s.define name value).1.labels = s.labels := by
  unfold define
  dsimp only
  repeat' split
  all_goals rfl

theorem Reader.labels_of_definition {o : Options} {w w' : Work} {r : Reader} {line : Line}
    {readers : List Reader} (definition : line.isDefinition = true)
    (handled : r.handle o w line = .ok (w', readers)) :
    w'.statements = w.statements ∧ w'.symbols.labels = w.symbols.labels := by
  obtain ⟨name, named, member⟩ := (Option.any_eq_true _ _).1 definition
  simp only [handle, named] at handled
  split at handled
  · have spelled : name = "def" ∨ name = "define" ∨ name = "equ" ∨ name = "undef" := by
      simpa using member
    have defined {operand : String} (made : w.define line operand = .ok w') :
        w'.statements = w.statements ∧ w'.symbols.labels = w.symbols.labels := by
      obtain ⟨name, value, known, statements, _⟩ := Work.define_ok made
      refine ⟨statements, ?_⟩
      rw [← w.symbols.labels_define name value, known]
    rcases spelled with rfl | rfl | rfl | rfl
    -- The three spellings of a definition.
    iterate 3
      · obtain ⟨_, _, made⟩ := bind_ok (Directive.onWork_ok handled)
        exact defined made
    · obtain ⟨operand, _, same⟩ := bind_ok (Directive.onWork_ok handled)
      cases same
      exact ⟨rfl, rfl⟩
  · cases handled
    exact ⟨rfl, rfl⟩

namespace Preprocess

def nextLine? (p : Preprocess) : Option Line :=
  p.readers.head?.bind fun r => r.take?.map fun next => used next.2 next.1

section

variable {o : Options} {file source : String} {p q : Preprocess}

theorem step_of_take {r taken : Reader} {outer : List Reader} {line : Line}
    (stack : p.readers = r :: outer) (took : r.take? = some (line, taken)) :
    step o p = readLine o p.work taken outer line := by
  cases replays : r.replays with
  | cons replay others =>
    cases rest : replay.rest with
    | cons first later =>
      simp only [Reader.take?, replays, rest, Option.some.injEq, Prod.mk.injEq] at took
      obtain ⟨rfl, rfl⟩ := took
      simp only [step, stack, replays, rest]
    | nil => simp [Reader.take?, replays, rest] at took
  | nil =>
    cases pending : r.pending with
    | cons first later =>
      simp only [Reader.take?, replays, pending, Option.some.injEq, Prod.mk.injEq] at took
      obtain ⟨rfl, rfl⟩ := took
      simp only [step, stack, replays, pending]
    | nil => simp [Reader.take?, replays, pending] at took

theorem handled_of_step {line : Line} (next : p.nextLine? = some line)
    (first : step o p = .more q) :
    ∃ r readers, Reader.handle o p.work r line = .ok (q.work, readers) := by
  obtain ⟨r, top, next⟩ := Option.bind_eq_some_iff.1 next
  obtain ⟨⟨written, taken⟩, took, rfl⟩ := Option.map_eq_some_iff.1 next
  obtain ⟨outer, stack⟩ := List.head?_eq_some_iff.1 top
  rw [step_of_take stack took, readLine_eq] at first
  split at first
  · rename_i handled
    cases first
    exact ⟨_, _, handled⟩
  · cases first

theorem isRead_reached (reached : Reaches o (start file source) p) :
    ∀ st ∈ p.work.statements, st.IsRead := by
  induction reached with
  | refl =>
    intro st member
    cases member
  | @tail p q _ first ih =>
    obtain ⟨_, moved⟩ := step_step o p
    rw [first] at moved
    exact moved.isRead ih

end

/-- Layout does not look at constants: whatever they are in the end, what was read is laid out
alike and becomes the same program. And when a line defines or drops a constant, the statements
before it and the labels stay, and so does what those statements become, wherever the labels of the
rest of the source come to stand. -/
theorem layout_ignores_constants (o : Options) (file source : String) :
    let work := (preprocess o file source).1
    (∀ constants : Std.TreeMap String Int64,
      let symbols := { work.symbols with constants }
      Layout.run o symbols work.statements.reverse =
          Layout.run o work.symbols work.statements.reverse ∧
        ∀ slots, Program.ofSlots symbols slots = Program.ofSlots work.symbols slots) ∧
    ∀ (p q : Preprocess) (line : Line), Reaches o (start file source) p →
      p.nextLine? = some line → line.isDefinition = true → step o p = .more q →
      q.work.statements = p.work.statements ∧ q.work.symbols.labels = p.work.symbols.labels ∧
      Layout.run o q.work.symbols q.work.statements.reverse =
        Layout.run o p.work.symbols p.work.statements.reverse ∧
      ∀ st ∈ p.work.statements, ∀ (symbols : Symbols) (constants : Std.TreeMap String Int64)
        (position : Nat → Option Nat) (finalize : Bool) (pos : Int) (old : Option Nat),
        st.emit o.optimize ⟨{ symbols with constants }, position, finalize⟩ pos old =
          st.emit o.optimize ⟨symbols, position, finalize⟩ pos old := by
  intro work
  constructor
  · intro constants symbols
    have labels : symbols.labels = work.symbols.labels := rfl
    refine ⟨Layout.run_of_labels labels o ?_, Program.ofSlots_of_labels labels⟩
    intro st member
    exact statements_isRead o file source st (List.mem_reverse.1 member)
  · intro p q line reached next definition first
    have reads := isRead_reached reached
    obtain ⟨r, readers, handled⟩ := handled_of_step next first
    obtain ⟨statements, labels⟩ := Reader.labels_of_definition definition handled
    refine ⟨statements, labels, ?_, ?_⟩
    · rw [statements]
      apply Layout.run_of_labels labels
      intro st member
      exact reads st (List.mem_reverse.1 member)
    · intro st member symbols constants position finalize pos old
      have read : st.fresh.IsRead := by
        rw [Statement.fresh_of_isRead (reads st member)]
        exact reads st member
      have labels' : { symbols with constants }.labels = symbols.labels := rfl
      exact Statement.emit_of_labels read labels' o.optimize position finalize pos old

/-- A constant that is used, asked about and dropped, and asked about again. -/
def dropped : String :=
  ".def N 3\n:start SET A, isdef(N)+N\n.undef N\nDAT end-start, isdef(N)\n:end\n"

-- The instruction keeps the constant after it is dropped, and one with the name of a label does not
-- get in its way.
theorem layout_ignores_constants_dropped :
    let work := (preprocess {} "dropped" dropped).1
    let symbols := { work.symbols with constants := Std.TreeMap.insert {} "END" 9 }
    (Layout.run {} symbols work.statements.reverse).slots.map Slot.words =
        [some [0x9001], some [3, 0]] ∧
      ∃ p q, Reaches {} (start "dropped" dropped) p ∧ step {} p = .more q ∧
        p.work.symbols.constants.toList = [("N", 3)] ∧ q.work.symbols.constants.toList = [] ∧
        Layout.run {} q.work.symbols q.work.statements.reverse =
          Layout.run {} p.work.symbols p.work.statements.reverse := by
  intro work symbols
  obtain ⟨settled, definitions⟩ := layout_ignores_constants {} "dropped" dropped
  constructor
  · rw [(settled _).1]
    decide +kernel
  · have computed : (advance {} 3 (start "dropped" dropped)).bind (fun p =>
        (advance {} 1 p).map fun q => (p.nextLine?.map Line.isDefinition,
          p.work.symbols.constants.toList, q.work.symbols.constants.toList)) =
        some (some true, [("N", 3)], []) := by
      decide +kernel
    obtain ⟨p, advanced, computed⟩ := Option.bind_eq_some_iff.1 computed
    obtain ⟨q, moved, computed⟩ := Option.map_eq_some_iff.1 computed
    simp only [Prod.mk.injEq, Option.map_eq_some_iff] at computed
    obtain ⟨⟨line, next, definition⟩, before, after⟩ := computed
    have reached : Reaches {} (start "dropped" dropped) p := reaches_of_advance advanced
    have first : step {} p = .more q := by
      simp only [advance] at moved
      split at moved
      · rename_i first
        cases moved
        exact first
      · cases moved
      · cases moved
    obtain ⟨_, _, same, _⟩ := definitions p q line reached next definition first
    exact ⟨p, q, reached, first, before, after, same⟩

end Preprocess

end WordAsm
