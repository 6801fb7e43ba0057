import WordAsm.Preprocess.Run
import WordAsm.Proofs.Evaluation

/-!
What preprocessing does to what it has gathered. Reading a line adds one statement, adds one
label, changes one constant or the origin, or leaves all of these alone; a run is a sequence of
such steps, so what holds at the beginning and is kept by each of them holds at its end.
-/
namespace WordAsm

/-- The difference that one line can make. A statement is read from the line itself or from the
bytes of the file that it names. -/
inductive Work.Step (w : Work) (given : Line) (w' : Work) : Prop where
  | quiet (symbols : w'.symbols = w.symbols) (statements : w'.statements = w.statements)
      (origin : w'.origin = w.origin)
  | statement (line : Line) (st : Statement)
      (shown : line = given ∨ ∃ bytes, line = Include.dataLine given bytes)
      (read : Statement.read w.symbols line = .ok st) (symbols : w'.symbols = w.symbols)
      (statements : w'.statements = st :: w.statements) (origin : w'.origin = w.origin)
  | label (name : String) (scope : Scope) (before after : String)
      (added : w.symbols.addLabel name scope before ⟨w.statements.length, w.origin⟩ =
        ((w'.symbols, after), none))
      (statements : w'.statements = w.statements) (origin : w'.origin = w.origin)
  | define (name : String) (value : Int64)
      (defined : w.symbols.define name value = (w'.symbols, none))
      (statements : w'.statements = w.statements) (origin : w'.origin = w.origin)
  | undefine (name : String) (symbols : w'.symbols = w.symbols.undefine name)
      (statements : w'.statements = w.statements) (origin : w'.origin = w.origin)
  | origin (symbols : w'.symbols = w.symbols) (statements : w'.statements = w.statements)

theorem accept_ok {α : Type} {answer : α × Option Fault} {a : α}
    (accepted : accept answer = .ok a) :
    answer = (a, none) := by
  obtain ⟨given, _ | fault⟩ := answer
  · cases accepted
    rfl
  · cases accepted

namespace Work

theorem Step.refl (w : Work) (given : Line) : w.Step given w := .quiet rfl rfl rfl

theorem Step.statements {w w' : Work} {given : Line} (step : w.Step given w') :
    w'.statements = w.statements ∨ ∃ line st,
      (line = given ∨ ∃ bytes, line = Include.dataLine given bytes) ∧
      Statement.read w.symbols line = .ok st ∧ w'.statements = st :: w.statements := by
  cases step with
  | statement line st shown read symbols statements origin =>
    exact .inr ⟨line, st, shown, read, statements⟩
  | quiet symbols statements origin => exact .inl statements
  | label name scope before after added statements origin => exact .inl statements
  | define name value defined statements origin => exact .inl statements
  | undefine name symbols statements origin => exact .inl statements
  | origin symbols statements => exact .inl statements

theorem step_add {w w' : Work} {line : Line} (added : w.add line = .ok w') :
    w.Step line w' := by
  obtain ⟨st, read, same⟩ := bind_ok added
  cases same
  exact .statement line st (.inl rfl) read rfl rfl rfl

theorem step_addLabel {w w' : Work} {line : Line} {before after : String}
    (added : w.addLabel line before = .ok (w', after)) : w.Step line w' := by
  obtain ⟨⟨symbols, after'⟩, added, same⟩ := bind_ok added
  cases same
  exact .label _ _ _ _ (accept_ok added) rfl rfl

theorem define_ok {w w' : Work} {line : Line} {operand : String}
    (defined : w.define line operand = .ok w') :
    ∃ name value, w.symbols.define name value = (w'.symbols, none) ∧
      w'.statements = w.statements ∧ w'.origin = w.origin := by
  unfold define at defined
  dsimp only at defined
  split at defined
  · obtain ⟨_, thrown, _⟩ := bind_ok defined
    cases thrown
  · split at defined <;>
    · obtain ⟨value, _, defined⟩ := bind_ok defined
      obtain ⟨symbols, known, same⟩ := bind_ok defined
      cases same
      exact ⟨_, _, accept_ok known, rfl, rfl⟩

theorem step_define {w w' : Work} {line : Line} {operand : String}
    (defined : w.define line operand = .ok w') : w.Step line w' := by
  obtain ⟨name, value, known, statements, origin⟩ := define_ok defined
  exact .define name value known statements origin

end Work

namespace Directive

theorem onWork_ok {r : Reader} {made : Except Fault Work} {w' : Work} {readers : List Reader}
    (applied : onWork r made = .ok (w', readers)) : made = .ok w' := by
  obtain ⟨w, known, same⟩ := bind_ok applied
  cases same
  exact known

theorem onReader_ok {w w' : Work} {made : Except Fault Reader} {readers : List Reader}
    (applied : onReader w made = .ok (w', readers)) : w' = w := by
  obtain ⟨r, _, same⟩ := bind_ok applied
  cases same
  rfl

theorem find_ok {o : Options} {w w' : Work} {line : Line} {hit : Option (String × List UInt8)}
    (found : Include.find o w line = .ok (w', hit)) :
    w'.symbols = w.symbols ∧ w'.statements = w.statements ∧ w'.origin = w.origin := by
  obtain ⟨_, _, found⟩ := bind_ok found
  obtain ⟨_, _, found⟩ := bind_ok found
  obtain ⟨hit', _, found⟩ := bind_ok found
  cases hit' with
  | none =>
    cases found
    exact ⟨rfl, rfl, rfl⟩
  | some _ =>
    cases found
    exact ⟨rfl, rfl, rfl⟩

theorem step_includeFile {o : Options} {w w' : Work} {r : Reader} {line : Line}
    {readers : List Reader} (applied : includeFile o w r line = .ok (w', readers)) :
    w.Step line w' := by
  obtain ⟨⟨noted, hit⟩, found, applied⟩ := bind_ok applied
  obtain ⟨symbols, statements, origin⟩ := find_ok found
  cases hit with
  | none =>
    cases applied
    exact .quiet symbols statements origin
  | some _ =>
    cases applied
    exact .quiet symbols statements origin

theorem step_includeBytes {o : Options} {w w' : Work} {line : Line}
    (applied : includeBytes o w line = .ok w') : w.Step line w' := by
  obtain ⟨⟨noted, hit⟩, found, applied⟩ := bind_ok applied
  obtain ⟨symbols, statements, origin⟩ := find_ok found
  cases hit with
  | none =>
    cases applied
    exact .quiet symbols statements origin
  | some entry =>
    obtain ⟨st, read, same⟩ := bind_ok applied
    cases same
    rw [symbols] at read
    exact .statement _ st (.inr ⟨entry.2, rfl⟩) read symbols (by rw [← statements]) origin

theorem step_close {w w' : Work} {r r' : Reader} (closed : close w r = .ok (w', r'))
    (line : Line) : w.Step line w' := by
  unfold close at closed
  split at closed
  · cases closed
  · split at closed
    · cases closed
      exact .refl w line
    · cases closed
      unfold register
      split
      · exact .quiet rfl rfl rfl
      · exact .refl w line

theorem step_apply {o : Options} {w w' : Work} {r : Reader} {line : Line} {name : String}
    {readers : List Reader} (applied : apply o w r line name = .ok (w', readers)) :
    w.Step line w' := by
  unfold apply at applied
  split at applied
  · exact step_includeFile applied
  · exact step_includeBytes (onWork_ok applied)
  -- The three spellings of a definition.
  iterate 3
    · obtain ⟨_, _, defined⟩ := bind_ok (onWork_ok applied)
      exact Work.step_define defined
  · obtain ⟨operand, _, same⟩ := bind_ok (onWork_ok applied)
    cases same
    exact .undefine operand rfl rfl rfl
  · cases applied
    exact .quiet rfl rfl rfl
  · cases applied
  -- Conditions, repetitions and the beginnings of macros are a matter of the reader alone.
  iterate 9
    · rw [onReader_ok applied]
      exact .refl w line
  · obtain ⟨⟨closedWork, _⟩, closed, same⟩ := bind_ok applied
    cases same
    exact step_close closed line
  · obtain ⟨_, _, moved⟩ := bind_ok (onWork_ok applied)
    obtain ⟨value, _, same⟩ := bind_ok moved
    cases same
    exact .origin rfl rfl
  · split at applied
    · exact Work.step_add (onWork_ok applied)
    · cases applied

end Directive

namespace Reader

theorem step_invoke {w w' : Work} {r r' : Reader} {line : Line}
    (invoked : invoke w r line = .ok (w', r')) : w.Step line w' := by
  obtain ⟨call, _, invoked⟩ := bind_ok invoked
  dsimp only at invoked
  split at invoked
  · cases invoked
  · obtain ⟨_, _, same⟩ := bind_ok invoked
    cases same
    exact .quiet rfl rfl rfl

theorem step_useLine {w w' : Work} {r r' : Reader} {line : Line}
    (used : useLine w r line = .ok (w', r')) : w.Step line w' := by
  unfold useLine at used
  split at used
  · exact step_invoke used
  · split at used
    · obtain ⟨_, added, same⟩ := bind_ok used
      cases same
      exact Work.step_addLabel added
    · split at used
      · cases used
      · obtain ⟨_, added, same⟩ := bind_ok used
        cases same
        exact Work.step_add added

theorem step_handle {o : Options} {w w' : Work} {r : Reader} {line : Line}
    {readers : List Reader} (handled : handle o w r line = .ok (w', readers)) : w.Step line w' := by
  unfold handle at handled
  split at handled
  · split at handled
    · exact Directive.step_apply handled
    · cases handled
      exact .refl w line
  · split at handled
    · obtain ⟨_, used, same⟩ := bind_ok handled
      cases same
      exact step_useLine used
    · cases handled
      exact .refl w line

end Reader

namespace Preprocess

/-- What an outcome has gathered. -/
def Outcome.work : Outcome → Work
  | more next => next.work
  | done work => work
  | failed work _ => work

theorem step_readLine (o : Options) (w : Work) (r : Reader) (outer : List Reader) (line : Line) :
    ∃ given, w.Step given (readLine o w r outer line).work := by
  unfold readLine
  dsimp only
  split
  · rename_i handled
    exact ⟨_, Reader.step_handle handled⟩
  · exact ⟨line, .refl w line⟩

theorem step_step (o : Options) (p : Preprocess) :
    ∃ given, p.work.Step given (step o p).work := by
  unfold step
  split
  · exact ⟨default, .refl p.work _⟩
  · split
    · split
      · exact step_readLine o p.work _ _ _
      · exact ⟨default, .refl p.work _⟩
    · split
      · exact step_readLine o p.work _ _ _
      · unfold endFile
        split
        · exact ⟨default, .refl p.work _⟩
        · split <;> exact ⟨default, .refl p.work _⟩

theorem run_invariant {P : Work → Prop}
    (kept : ∀ (w w' : Work) (given : Line), w.Step given w' → P w → P w') (o : Options) (n : Nat)
    (p : Preprocess) (holds : P p.work) : P (run o n p).1 := by
  induction n generalizing p with
  | zero => exact holds
  | succ n ih =>
    obtain ⟨given, moved⟩ := step_step o p
    have after := kept _ _ given moved holds
    unfold run
    cases taken : step o p with
    | more next =>
      rw [taken] at after
      exact ih next after
    | done work =>
      rw [taken] at after
      exact after
    | failed work failure =>
      rw [taken] at after
      exact after

end Preprocess

theorem preprocess_invariant {P : Work → Prop}
    (kept : ∀ (w w' : Work) (given : Line), w.Step given w' → P w → P w') (holds : P {})
    (o : Options) (file source : String) : P (preprocess o file source).1 :=
  Preprocess.run_invariant kept o o.lineLimit (Preprocess.start file source) holds

/-- A statement as it was read from its line, with the symbols of that time. -/
def Statement.IsRead (st : Statement) : Prop := ∃ s, Statement.read s st.line = .ok st

theorem Statement.isRead_of_read {s : Symbols} {line : Line} {st : Statement}
    (read : Statement.read s line = .ok st) : st.IsRead := by
  obtain ⟨body, _, same⟩ := bind_ok read
  cases same
  exact ⟨s, read⟩

theorem Work.Step.isRead {w w' : Work} {given : Line} (step : w.Step given w')
    (all : ∀ st ∈ w.statements, st.IsRead) : ∀ st ∈ w'.statements, st.IsRead := by
  intro st member
  rcases step.statements with same | ⟨line, added, _, read, same⟩
  · rw [same] at member
    exact all st member
  · rw [same, List.mem_cons] at member
    rcases member with rfl | earlier
    · exact Statement.isRead_of_read read
    · exact all st earlier

theorem statements_isRead (o : Options) (file source : String) :
    ∀ st ∈ (preprocess o file source).1.statements, st.IsRead := by
  apply preprocess_invariant (P := fun w => ∀ st ∈ w.statements, st.IsRead)
  · intro w w' given step all
    exact step.isRead all
  · intro st member
    cases member

end WordAsm
