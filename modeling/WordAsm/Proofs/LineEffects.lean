import WordAsm.Proofs.Blocks

/-!
What a line can do to the open blocks and to the macros. A line opens a block, goes on with the
branches of one, closes one or replays it, invokes a macro, includes a file, puts a label into a
namespace, or leaves the reader as it is. Macros change only when one is defined or invoked. What
preprocessing keeps to is read off these cases.
-/
namespace WordAsm

/-- An invocation of a macro: the key of the macro, how often it had been invoked since it was
defined, this time included, and the scope of the line that invokes it. -/
structure Invocation where
  key : String
  count : Nat
  outer : Scope
  deriving DecidableEq, Repr

inductive MacroEvent where
  | defined (key : String)
  | invoked (i : Invocation)
  deriving DecidableEq, Repr

namespace Macro

def counted (m : Macro) : Macro := { m with count := m.count + 1 }

def expansion (m : Macro) (arguments : List String) (outer : Scope) : List Line :=
  m.body.map (expandLine (m.params.zip arguments) (outer.enter m.counted.fragment))

theorem expand_ok {m counted : Macro} {arguments : List String} {outer : Scope} {body : List Line}
    (expanded : m.expand arguments outer = .ok (counted, body)) :
    counted = m.counted ∧ body = m.expansion arguments outer := by
  unfold expand at expanded
  split at expanded
  · cases expanded
  · cases expanded
    exact ⟨rfl, rfl⟩

end Macro

namespace Frame

inductive Opened : Bool → Frame → Prop
  | branch (taken : Bool) :
      Opened true { kind := .conditional, isActive := taken, isSettled := taken }
  | skippedBranch : Opened false { kind := .conditional, isActive := false, isSettled := true }
  | repetition (n : Nat) :
      Opened true { kind := .repetition, isActive := false, remaining := n }
  | skippedRepetition : Opened false { kind := .repetition, isActive := false }
  | definition (s : Signature) :
      Opened true { kind := .expansion (some s), isActive := false }
  | skippedDefinition : Opened false { kind := .expansion none, isActive := false }

def ofExpansion (body : List Line) : Frame :=
  { kind := .expansion none, isActive := true, captured := body.reverse, isReplaying := true }

def definition? (f : Frame) : Option String :=
  match f.kind with
  | .expansion (some s) => some (Text.upper s.name)
  | _ => none

end Frame

namespace Reader

/-- What a line does to a macro. -/
def event? (w : Work) (r : Reader) (line : Line) : Option MacroEvent :=
  match Token.directive? line.first with
  | some name => if name = "end" then r.top.definition?.map .defined else none
  | none =>
    if r.top.isActive && line.first.toList.contains '(' then
      match Signature.read line.tokens with
      | .ok call => (w.macros[Text.upper call.name]?).map fun m =>
          .invoked ⟨Text.upper call.name, m.count + 1, line.scope⟩
      | .error _ => none
    else none

inductive Effect (o : Options) (w : Work) (r : Reader) (line : Line) :
    Option MacroEvent → Work → List Reader → Prop
  | stays {w' : Work} (macros : w'.macros = w.macros) : Effect o w r line none w' [r]
  | labels {w' : Work} (macros : w'.macros = w.macros) (global : String) :
      Effect o w r line none w' [{ r with top := { r.top with global } }]
  | opens {f : Frame} (opened : f.Opened r.top.isActive) : Effect o w r line none w [r.push f]
  | branches {isActive isSettled : Bool} (conditional : r.top.kind = .conditional)
      (once : isActive = true → r.top.isSettled = false)
      (settled : r.top.isSettled = true → isSettled = true) :
      Effect o w r line none w [{ r with top := { r.top with isActive, isSettled } }]
  | replays {outer : Frame} {below : List Frame} (stack : r.below = outer :: below)
      (kind : r.top.kind = .repetition) (more : 0 < r.top.remaining) :
      Effect o w r line none w [r.replayTop]
  | closes {outer : Frame} {below : List Frame} (stack : r.below = outer :: below) :
      Effect o w r line (r.top.definition?.map .defined) (Directive.register w r.top)
        [r.pop outer below]
  | includes {w' : Work} (macros : w'.macros = w.macros)
      (named : Token.directive? line.first = some "include") {path : String} {bytes : List UInt8}
      (found : o.files.read path = .ok bytes) :
      Effect o w r line none w' [.ofSource path (Text.decode bytes) r.top.global, r]
  | invokes {call : Signature} {m : Macro}
      (known : w.macros[Text.upper call.name]? = some m) (used : r.top.isActive = true) :
      Effect o w r line (some (.invoked ⟨Text.upper call.name, m.count + 1, line.scope⟩))
        { w with macros := w.macros.insert (Text.upper call.name) m.counted }
        [r.pushReplay (.ofExpansion (m.expansion call.arguments line.scope))
          (m.expansion call.arguments line.scope)]

end Reader

namespace Work

variable {w w' : Work} {line : Line}

theorem macros_add (added : w.add line = .ok w') : w'.macros = w.macros := by
  obtain ⟨_, _, same⟩ := bind_ok added
  cases same
  rfl

theorem macros_addLabel {before after : String} (added : w.addLabel line before = .ok (w', after)) :
    w'.macros = w.macros := by
  obtain ⟨_, _, same⟩ := bind_ok added
  cases same
  rfl

theorem macros_define {operand : String} (defined : w.define line operand = .ok w') :
    w'.macros = w.macros := by
  unfold define at defined
  dsimp only at defined
  split at defined
  · obtain ⟨_, thrown, _⟩ := bind_ok defined
    cases thrown
  · split at defined <;>
    · obtain ⟨_, _, defined⟩ := bind_ok defined
      obtain ⟨_, _, same⟩ := bind_ok defined
      cases same
      rfl

end Work

namespace Directive

open Reader (Effect)

variable {o : Options} {w w' : Work} {r r' : Reader} {line : Line} {name : String}
  {readers : List Reader}

theorem macros_find {hit : Option (String × List UInt8)}
    (found : Include.find o w line = .ok (w', hit)) : w'.macros = w.macros := by
  obtain ⟨_, _, found⟩ := bind_ok found
  obtain ⟨_, _, found⟩ := bind_ok found
  obtain ⟨hit', _, found⟩ := bind_ok found
  cases hit' with
  | none =>
    cases found
    rfl
  | some _ =>
    cases found
    rfl

theorem read_firstOf {files : FileStore} {paths : List String} {path : String} {bytes : List UInt8}
    (first : Include.firstOf files paths = .ok (some (path, bytes))) :
    files.read path = .ok bytes := by
  induction paths with
  | nil => cases first
  | cons candidate rest ih =>
    rw [Include.firstOf] at first
    split at first
    · rename_i read
      cases first
      exact read
    · split at first
      · exact ih first
      · cases first

theorem read_find {path : String} {bytes : List UInt8}
    (found : Include.find o w line = .ok (w', some (path, bytes))) :
    o.files.read path = .ok bytes := by
  obtain ⟨_, _, found⟩ := bind_ok found
  obtain ⟨_, _, found⟩ := bind_ok found
  obtain ⟨hit, first, found⟩ := bind_ok found
  cases hit with
  | none => cases found
  | some _ =>
    cases found
    exact read_firstOf first

theorem effect_includeFile (named : Token.directive? line.first = some "include")
    (applied : includeFile o w r line = .ok (w', readers)) : Effect o w r line none w' readers := by
  obtain ⟨⟨noted, hit⟩, found, applied⟩ := bind_ok applied
  have macros := macros_find found
  cases hit with
  | none =>
    cases applied
    exact .stays macros
  | some file =>
    cases applied
    exact .includes (by simpa using macros) named (read_find found)

theorem macros_includeBytes (applied : includeBytes o w line = .ok w') :
    w'.macros = w.macros := by
  obtain ⟨⟨noted, hit⟩, found, applied⟩ := bind_ok applied
  have macros := macros_find found
  cases hit with
  | none =>
    cases applied
    exact macros
  | some _ => exact (Work.macros_add applied).trans macros

theorem effect_onWork {made : Except Fault Work}
    (macros : ∀ w', made = .ok w' → w'.macros = w.macros)
    (applied : onWork r made = .ok (w', readers)) : Effect o w r line none w' readers := by
  obtain ⟨made', known, same⟩ := bind_ok applied
  cases same
  exact .stays (macros _ known)

theorem effect_onReader {made : Except Fault Reader}
    (effect : ∀ r', made = .ok r' → Effect o w r line none w [r'])
    (applied : onReader w made = .ok (w', readers)) : Effect o w r line none w' readers := by
  obtain ⟨r', known, same⟩ := bind_ok applied
  cases same
  exact effect r' known

theorem effect_openIf (opened : openIf w r line name = .ok r') : Effect o w r line none w [r'] := by
  unfold openIf at opened
  split at opened
  · rename_i used
    obtain ⟨taken, _, same⟩ := bind_ok opened
    cases same
    exact .opens (used ▸ .branch taken)
  · rename_i skipped
    cases opened
    exact .opens (Bool.eq_false_iff.2 skipped ▸ .skippedBranch)

theorem effect_elseIf (opened : elseIf w r line name = .ok r') : Effect o w r line none w [r'] := by
  unfold elseIf at opened
  split at opened
  · cases opened
  · rename_i conditional
    have kind : r.top.kind = .conditional := by simpa using conditional
    split at opened
    · rename_i settled
      cases opened
      exact .branches kind (by simp) (by simp)
    · rename_i open_
      obtain ⟨taken, _, same⟩ := bind_ok opened
      cases same
      exact .branches kind (by simp [open_]) (by simp [open_])

theorem effect_otherwise (opened : otherwise r = .ok r') : Effect o w r line none w [r'] := by
  unfold otherwise at opened
  split at opened
  · cases opened
  · rename_i conditional
    have kind : r.top.kind = .conditional := by simpa using conditional
    cases opened
    exact .branches kind (by simp) (by simp)

theorem effect_openRep (opened : openRep w r line = .ok r') : Effect o w r line none w [r'] := by
  unfold openRep at opened
  split at opened
  · rename_i used
    obtain ⟨_, _, opened⟩ := bind_ok opened
    obtain ⟨n, _, same⟩ := bind_ok opened
    cases same
    exact .opens (used ▸ .repetition _)
  · rename_i skipped
    cases opened
    exact .opens (Bool.eq_false_iff.2 skipped ▸ .skippedRepetition)

theorem effect_openMacro (opened : openMacro r line = .ok r') : Effect o w r line none w [r'] := by
  unfold openMacro at opened
  split at opened
  · rename_i used
    obtain ⟨signature, _, same⟩ := bind_ok opened
    cases same
    exact .opens (used ▸ .definition signature)
  · rename_i skipped
    cases opened
    exact .opens (Bool.eq_false_iff.2 skipped ▸ .skippedDefinition)

theorem effect_close (closed : close w r = .ok (w', r')) :
    Effect o w r line (r.top.definition?.map .defined) w' [r'] := by
  unfold close at closed
  split at closed
  · cases closed
  · rename_i outer below stack
    split at closed
    · rename_i again
      simp only [Bool.and_eq_true, beq_iff_eq, decide_eq_true_eq] at again
      have quiet : r.top.definition? = none := by simp [Frame.definition?, again.1]
      cases closed
      rw [quiet]
      exact .replays stack again.1 again.2
    · cases closed
      exact .closes stack

theorem effect_apply (named : Token.directive? line.first = some name)
    (applied : apply o w r line name = .ok (w', readers)) :
    Effect o w r line (r.event? w line) w' readers := by
  have quiet : name ≠ "end" → r.event? w line = none := by
    intro other
    simp [Reader.event?, named, other]
  unfold apply at applied
  split at applied
  · rw [quiet (by decide)]
    exact effect_includeFile named applied
  · rw [quiet (by decide)]
    exact effect_onWork (fun _ => macros_includeBytes) applied
  iterate 3
    · rw [quiet (by decide)]
      refine effect_onWork (fun w'' defined => ?_) applied
      obtain ⟨_, _, defined⟩ := bind_ok defined
      exact Work.macros_define defined
  · rw [quiet (by decide)]
    refine effect_onWork (fun w'' dropped => ?_) applied
    obtain ⟨_, _, same⟩ := bind_ok dropped
    cases same
    rfl
  · rw [quiet (by decide)]
    cases applied
    exact .stays rfl
  · cases applied
  iterate 3
    · rw [quiet (by decide)]
      exact effect_onReader (fun _ => effect_openIf) applied
  iterate 3
    · rw [quiet (by decide)]
      exact effect_onReader (fun _ => effect_elseIf) applied
  · rw [quiet (by decide)]
    exact effect_onReader (fun _ => effect_otherwise) applied
  · rw [quiet (by decide)]
    exact effect_onReader (fun _ => effect_openRep) applied
  · rw [quiet (by decide)]
    exact effect_onReader (fun _ => effect_openMacro) applied
  · have closing : r.event? w line = r.top.definition?.map .defined := by
      simp [Reader.event?, named]
    obtain ⟨⟨_, _⟩, closed, same⟩ := bind_ok applied
    cases same
    rw [closing]
    exact effect_close closed
  · rw [quiet (by decide)]
    refine effect_onWork (fun w'' moved => ?_) applied
    obtain ⟨_, _, moved⟩ := bind_ok moved
    obtain ⟨_, _, same⟩ := bind_ok moved
    cases same
    rfl
  · rw [quiet (by assumption)]
    split at applied
    · exact effect_onWork (fun _ => Work.macros_add) applied
    · cases applied

end Directive

namespace Reader

variable {o : Options} {w w' : Work} {r r' : Reader} {line : Line} {readers : List Reader}

theorem effect_invoke (used : r.top.isActive = true)
    (unnamed : Token.directive? line.first = none) (call : line.first.toList.contains '(' = true)
    (invoked : invoke w r line = .ok (w', r')) :
    Effect o w r line (r.event? w line) w' [r'] := by
  obtain ⟨signature, read, invoked⟩ := bind_ok invoked
  dsimp only at invoked
  split at invoked
  · cases invoked
  · rename_i m known
    obtain ⟨⟨counted, body⟩, expanded, same⟩ := bind_ok invoked
    obtain ⟨rfl, rfl⟩ := Macro.expand_ok expanded
    cases same
    have event : r.event? w line =
        some (.invoked ⟨Text.upper signature.name, m.count + 1, line.scope⟩) := by
      simp only [event?, unnamed, used, call, read, known, Bool.and_self, if_true, Option.map_some]
    rw [event]
    exact .invokes known used

theorem effect_useLine (used : r.top.isActive = true)
    (unnamed : Token.directive? line.first = none) (done : useLine w r line = .ok (w', r')) :
    Effect o w r line (r.event? w line) w' [r'] := by
  unfold useLine at done
  split at done
  · rename_i call
    exact effect_invoke used unnamed call done
  · rename_i plain
    have quiet : r.event? w line = none := by
      simp only [event?, unnamed, used, plain, Bool.and_false, Bool.false_eq_true, if_false]
    rw [quiet]
    split at done
    · obtain ⟨⟨_, global⟩, added, same⟩ := bind_ok done
      cases same
      exact .labels (Work.macros_addLabel added) global
    · split at done
      · cases done
      · obtain ⟨_, added, same⟩ := bind_ok done
        cases same
        exact .stays (Work.macros_add added)

theorem effect_handle (handled : r.handle o w line = .ok (w', readers)) :
    Effect o w r line (r.event? w line) w' readers := by
  unfold handle at handled
  split at handled
  · rename_i name named
    split at handled
    · exact Directive.effect_apply named handled
    · rename_i skipped
      have other : name ≠ "end" := by
        rintro rfl
        simp [Directive.isFlow] at skipped
      have quiet : r.event? w line = none := by simp [event?, named, other]
      cases handled
      rw [quiet]
      exact .stays rfl
  · rename_i unnamed
    split at handled
    · rename_i used
      obtain ⟨⟨_, _⟩, done, same⟩ := bind_ok handled
      cases same
      exact effect_useLine used unnamed done
    · rename_i skipped
      have quiet : r.event? w line = none := by simp [event?, unnamed, skipped]
      cases handled
      rw [quiet]
      exact .stays rfl

section

variable {event : Option MacroEvent} {i : Invocation}

theorem Effect.invoked (effect : Effect o w r line (some (.invoked i)) w' readers) :
    ∃ (m : Macro) (arguments : List String), w.macros[i.key]? = some m ∧ i.count = m.count + 1 ∧
      i.outer = line.scope ∧
      readers = [r.pushReplay (.ofExpansion (m.expansion arguments line.scope))
        (m.expansion arguments line.scope)] := by
  generalize shown : some (MacroEvent.invoked i) = event at effect
  cases effect with
  | closes stack =>
    obtain ⟨key, _, other⟩ := Option.map_eq_some_iff.1 shown.symm
    cases other
  | @invokes call m known used =>
    cases shown
    exact ⟨m, call.arguments, known, rfl, rfl, rfl⟩
  | stays | labels | opens | branches | replays | includes => cases shown

theorem Effect.macros (effect : Effect o w r line event w' readers) :
    (event = none ∧ w'.macros = w.macros) ∨
    (∃ m : Macro, event = some (.defined (Text.upper m.name)) ∧ m.count = 0 ∧
      m.body = r.top.captured.reverse ∧ w'.macros = w.macros.insert (Text.upper m.name) m) ∨
    ∃ (i : Invocation) (m : Macro), event = some (.invoked i) ∧ i.count = m.count + 1 ∧
      w.macros[i.key]? = some m ∧ w'.macros = w.macros.insert i.key m.counted := by
  cases effect with
  | stays macros => exact .inl ⟨rfl, macros⟩
  | labels macros _ => exact .inl ⟨rfl, macros⟩
  | opens => exact .inl ⟨rfl, rfl⟩
  | branches => exact .inl ⟨rfl, rfl⟩
  | replays => exact .inl ⟨rfl, rfl⟩
  | includes macros => exact .inl ⟨rfl, macros⟩
  | closes stack =>
    unfold Frame.definition? Directive.register
    cases kind : r.top.kind with
    | expansion definition =>
      cases definition with
      | none => exact .inl ⟨rfl, rfl⟩
      | some s =>
        exact .inr (.inl ⟨⟨s.name, s.arguments, r.top.captured.reverse, 0⟩, rfl, rfl, rfl, rfl⟩)
    | bottom => exact .inl ⟨rfl, rfl⟩
    | conditional => exact .inl ⟨rfl, rfl⟩
    | repetition => exact .inl ⟨rfl, rfl⟩
  | @invokes call m known used => exact .inr (.inr ⟨_, m, rfl, rfl, known, rfl⟩)

end

def take? (r : Reader) : Option (Line × Reader) :=
  match r.replays with
  | replay :: replays =>
    match replay.rest with
    | line :: rest => some (line, { r with replays := { replay with rest } :: replays })
    | [] => none
  | [] =>
    match r.pending with
    | line :: pending => some (line, { r with pending })
    | [] => none

end Reader

namespace Preprocess

/-- What the next line does to a macro. -/
def event? (p : Preprocess) : Option MacroEvent :=
  p.readers.head?.bind fun r => r.take?.bind fun next =>
    (showing next.2 next.1).event? p.work (used next.2 next.1)

/-- What a step does: the innermost reader, whose blocks are closed, is done, or it reads a
line. -/
inductive Moves (o : Options) (p next : Preprocess) : Prop
  | ended {r : Reader} {waiting : List Reader} (stack : p.readers = r :: waiting)
      (quiet : p.event? = none) (replays : r.replays = []) (pending : r.pending = [])
      (below : r.below = []) (work : next.work = p.work) (left : next.readers = waiting)
  | read {r taken : Reader} {line : Line} {waiting readers : List Reader}
      (stack : p.readers = r :: waiting) (took : r.take? = some (line, taken))
      (effect : Reader.Effect o p.work (showing taken line) (used taken line) p.event? next.work
        readers)
      (made : p.work.Step (used taken line) next.work)
      (left : next.readers = readers ++ waiting)

theorem moves_read {o : Options} {p next : Preprocess} {r taken : Reader} {line : Line}
    {waiting : List Reader} (stack : p.readers = r :: waiting) (took : r.take? = some (line, taken))
    (read : readLine o p.work taken waiting line = .more next) : Moves o p next := by
  rw [readLine_eq] at read
  split at read
  · rename_i w' readers handled
    cases read
    have event : p.event? = (showing taken line).event? p.work (used taken line) := by
      simp [event?, stack, took]
    refine .read stack took ?_ (Reader.step_handle handled) rfl
    rw [event]
    exact Reader.effect_handle handled
  · cases read

theorem moves_step {o : Options} {p next : Preprocess} (first : step o p = .more next) :
    Moves o p next := by
  unfold step at first
  split at first
  · cases first
  · rename_i r waiting stack
    split at first
    · rename_i replay replays source
      split at first
      · rename_i line rest lines
        exact moves_read stack (by simp [Reader.take?, source, lines]) first
      · cases first
    · rename_i source
      split at first
      · rename_i line pending lines
        exact moves_read stack (by simp [Reader.take?, source, lines]) first
      · rename_i lines
        unfold endFile at first
        split at first
        · cases first
        · split at first
          · rename_i closed
            cases first
            have none : r.take? = none := by simp [Reader.take?, source, lines]
            exact .ended stack (by simp [event?, stack, none]) source lines
              (List.isEmpty_iff.1 closed) rfl rfl
          · cases first

end Preprocess

end WordAsm
