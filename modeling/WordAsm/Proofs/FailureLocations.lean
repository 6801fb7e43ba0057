import WordAsm.Proofs.HeldLines
import WordAsm.Proofs.LayoutConvergence
import WordAsm.Proofs.ReadingFaults
import WordAsm.Program

/-!
Where failures are located. Every line that is read or emitted was written in the source or in a
file that it includes, and keeps its place there when it is repeated or expanded. A failure has the
place of the line that it arises on, whatever includes or invokes this line. One fault arises on no
line: a label in the middle of a line ends its text, and is reported without a place, or with the
place of the line that includes the text.
-/
namespace WordAsm

inductive IsText (o : Options) (file source : String) : String → String → Prop
  | main : IsText o file source file source
  | included {path : String} {bytes : List UInt8} (found : o.files.read path = .ok bytes) :
      IsText o file source path (Text.decode bytes)

namespace Tokenizer

namespace Scan

theorem fault_flush (s : Scan) : s.flush.fault = s.fault := by
  unfold flush
  split <;> rfl

theorem fault_endLine (s : Scan) (n : Nat) : (s.endLine n).fault = s.fault := by
  unfold endLine
  dsimp only
  split <;> exact s.fault_flush

theorem fault_plain (s : Scan) (file : String) (n : Nat) (lexeme : List Char) :
    (s.plain file n lexeme).fault = s.fault ∨
      (s.plain file n lexeme).fault = some (.label (.misplaced file n (String.ofList lexeme))) := by
  unfold plain
  repeat' split
  · exact .inl (s.fault_endLine n)
  · exact .inl (s.fault_endLine n)
  · unfold label
    dsimp only
    split
    · exact .inl s.fault_flush
    · exact .inr rfl
  all_goals exact .inl rfl

theorem fault_step (s : Scan) (file : String) (lexeme : List Char) :
    (s.step file lexeme).fault = s.fault ∨ (s.step file lexeme).fault =
      some (.label (.misplaced file s.number (String.ofList lexeme))) := by
  unfold step
  split
  · exact .inl rfl
  · dsimp only
    generalize next : (if lexeme == ['\n'] then { s with number := s.number + 1 } else s) = t
    have same : t.fault = s.fault := by
      rw [← next]
      split <;> rfl
    rw [← same]
    split
    · exact t.fault_plain file s.number lexeme
    · split
      · exact .inl (t.fault_endLine s.number)
      · exact .inl rfl
    · left
      unfold quoted
      dsimp only
      repeat' split
      all_goals rfl

theorem fault_steps {file : String} {fault : Fault} (lexemes : List (List Char)) (s : Scan)
    (faulty : (lexemes.foldl (step file) s).fault = some fault) :
    s.fault = some fault ∨ ∃ n token, fault = .label (.misplaced file n token) := by
  induction lexemes generalizing s with
  | nil => exact .inl faulty
  | cons lexeme rest ih =>
    cases ih (s.step file lexeme) faulty with
    | inr found => exact .inr found
    | inl here =>
      cases s.fault_step file lexeme with
      | inl same => exact .inl (same.symm.trans here)
      | inr found =>
        rw [found, Option.some.injEq] at here
        exact .inr ⟨s.number, _, here.symm⟩

end Scan

theorem fault_tokenize {file source : String} {fault : Fault}
    (faulty : (tokenize file source).fault = some fault) :
    ∃ n token, fault = .label (.misplaced file n token) := by
  have last : ∀ found pieces, (Lines.ofPieces file found pieces).fault = some fault →
      found = some fault := by
    intro found pieces
    fun_induction Lines.ofPieces file found pieces with
    | case1 => exact id
    | case2 tokens n rest ih => exact ih
    | case3 n faulty => exact id
    | case4 n faulty => simp
    | case5 n next rest goes ih => exact ih
    | case6 n next rest goes ih => exact ih
  cases Scan.fault_steps _ {} (last _ _ faulty) with
  | inl none => cases none
  | inr found => exact found

end Tokenizer

namespace Line

inductive Becomes (written : Line) : Line → Prop
  | itself : Becomes written written
  | opened {line : Line} (earlier : Becomes written line) (global : String) :
      Becomes written { line with global }
  | spelled {line : Line} (earlier : Becomes written line) :
      Becomes written (Preprocess.canonical line)
  | expanded {line : Line} (earlier : Becomes written line) (bindings : List (String × String))
      (scope : Scope) : Becomes written (Macro.expandLine bindings scope line)
  | filled {line : Line} (earlier : Becomes written line) (bytes : List UInt8) :
      Becomes written (Include.dataLine line bytes)

theorem Becomes.place {written line : Line} (becomes : written.Becomes line) :
    line.file = written.file ∧ line.number = written.number := by
  induction becomes with
  | itself => exact ⟨rfl, rfl⟩
  | opened _ _ ih => exact ih
  | @spelled line _ ih =>
    have same : (Preprocess.canonical line).file = line.file ∧
        (Preprocess.canonical line).number = line.number := by
      unfold Preprocess.canonical
      repeat' split
      all_goals exact ⟨rfl, rfl⟩
    exact ⟨same.1.trans ih.1, same.2.trans ih.2⟩
  | expanded _ _ _ ih => exact ih
  | filled _ _ ih => exact ih

def IsWritten (o : Options) (file source : String) (line : Line) : Prop :=
  ∃ path text written, IsText o file source path text ∧
    written ∈ (Tokenizer.tokenize path text).lines ∧ written.Becomes line

section

variable {o : Options} {file source : String} {line : Line}

theorem isWritten_text {path text : String} (given : IsText o file source path text) :
    ∀ line ∈ (Tokenizer.tokenize path text).lines, line.IsWritten o file source := by
  intro line member
  exact ⟨path, text, line, given, member, .itself⟩

theorem IsWritten.becomes {line' : Line} (written : line.IsWritten o file source)
    (next : ∀ first : Line, first.Becomes line → first.Becomes line') :
    line'.IsWritten o file source := by
  obtain ⟨path, text, first, given, member, becomes⟩ := written
  exact ⟨path, text, first, given, member, next first becomes⟩

theorem kept_isWritten : Kept (IsWritten o file source) where
  opened _ global written := written.becomes fun _ becomes => becomes.opened global
  spelled _ written := written.becomes fun _ becomes => becomes.spelled

end

end Line

namespace Reader

section

variable {o : Options} {w w' : Work} {r : Reader} {line : Line} {event : Option MacroEvent}
  {readers : List Reader}

theorem Effect.texts (effect : Effect o w r line event w' readers) :
    (∃ r', readers = [r'] ∧ r'.file = r.file ∧ r'.fault = r.fault ∧ r'.last = r.last) ∨
    Token.directive? line.first = some "include" ∧ ∃ path bytes, o.files.read path = .ok bytes ∧
      readers = [.ofSource path (Text.decode bytes) r.top.global, r] := by
  cases effect with
  | stays | labels | opens | branches | closes | invokes =>
    exact .inl ⟨_, rfl, rfl, rfl, rfl⟩
  | replays =>
    refine .inl ⟨_, rfl, ?_⟩
    unfold replayTop
    dsimp only
    split <;> exact ⟨rfl, rfl, rfl⟩
  | includes _ named found => exact .inr ⟨named, _, _, found, rfl⟩

theorem Effect.bodies {kind : Line → Prop} (effect : Effect o w r line event w' readers)
    (holds : r.Holds kind)
    (bodies : ∀ (key : String) m, w.macros[key]? = some m → ∀ l ∈ m.body, kind l) :
    ∀ (key : String) m, w'.macros[key]? = some m → ∀ l ∈ m.body, kind l := by
  intro key m known
  rcases effect.macros with ⟨_, same⟩ | ⟨d, _, _, body, same⟩ | ⟨i, d, _, _, before, same⟩
  · rw [same] at known
    exact bodies key m known
  · rw [same, Std.TreeMap.getElem?_insert] at known
    split at known
    · cases known
      rw [body]
      intro l member
      exact holds.captured r.top (List.mem_cons_self ..) l (List.mem_reverse.1 member)
    · exact bodies key m known
  · rw [same, Std.TreeMap.getElem?_insert] at known
    split at known
    · cases known
      exact bodies i.key d before
    · exact bodies key m known

theorem text_take {taken : Reader} (took : r.take? = some (line, taken)) :
    taken.file = r.file ∧ taken.fault = r.fault := by
  unfold take? at took
  repeat' split at took
  all_goals cases took
  all_goals exact ⟨rfl, rfl⟩

theorem text_capture (line : Line) (r : Reader) :
    (r.capture line).file = r.file ∧ (r.capture line).fault = r.fault := by
  unfold capture
  split <;> exact ⟨rfl, rfl⟩

end

/-- Readers of texts: below the reader of a file waits the one that has read the line which
includes it, and the reader of the source is the outermost. -/
inductive Nested (o : Options) (file source : String) : List Reader → Prop
  | main {r : Reader} (named : r.file = file)
      (fault : r.fault = (Tokenizer.tokenize file source).fault) : Nested o file source [r]
  | included {r outer : Reader} {rest : List Reader} {bytes : List UInt8} {line : Line}
      (found : o.files.read r.file = .ok bytes)
      (fault : r.fault = (Tokenizer.tokenize r.file (Text.decode bytes)).fault)
      (last : outer.last = some line) (including : Token.directive? line.first = some "include")
      (waiting : Nested o file source (outer :: rest)) : Nested o file source (r :: outer :: rest)

theorem Nested.congr {o : Options} {file source : String} {r r' : Reader} {rest : List Reader}
    (nested : Nested o file source (r :: rest)) (named : r'.file = r.file)
    (fault : r'.fault = r.fault) : Nested o file source (r' :: rest) := by
  cases nested with
  | main known same => exact .main (named.trans known) (fault.trans same)
  | included found same last including waiting =>
    rw [← named] at found same
    exact .included found (fault.trans same) last including waiting

theorem Nested.push {o : Options} {file source path : String} {r : Reader} {rest : List Reader}
    {line : Line} {bytes : List UInt8} (nested : Nested o file source (r :: rest))
    (last : r.last = some line) (including : Token.directive? line.first = some "include")
    (found : o.files.read path = .ok bytes) (global : String) :
    Nested o file source (.ofSource path (Text.decode bytes) global :: r :: rest) := by
  have read : o.files.read (ofSource path (Text.decode bytes) global).file = .ok bytes := found
  have fault : (ofSource path (Text.decode bytes) global).fault =
      (Tokenizer.tokenize path (Text.decode bytes)).fault := by rw [ofSource]
  exact .included read fault last including nested

end Reader

inductive Layout.Before (o : Options) (symbols : Symbols) (statements : List Statement) :
    Bool → List Slot → Prop
  | provisional : Before o symbols statements false (start statements)
  | finalizing {n : Nat} {slots : List Slot}
      (reached : after o.optimize symbols statements n = some slots) (allowed : n < o.passes) :
      Before o symbols statements true slots

open Preprocess (Reaches start used showing)

inductive Fault.ArisesOn (o : Options) (file source : String) : Fault → Line → Prop
  | reading {p : Preprocess} {r taken : Reader} {waiting : List Reader} {line : Line}
      {fault : Fault} (reached : Reaches o (start file source) p)
      (stack : p.readers = r :: waiting) (took : r.take? = some (line, taken))
      (failed : (showing taken line).handle o p.work (used taken line) = .error fault) :
      ArisesOn o file source fault (used taken line)
  | ending {p : Preprocess} {r : Reader} {waiting : List Reader} {line : Line}
      {why : UnterminatedFault} (reached : Reaches o (start file source) p)
      (stack : p.readers = r :: waiting) (exhausted : r.take? = none)
      (opened : r.below ≠ [] ∨ r.replays ≠ []) (last : r.last = some line) :
      ArisesOn o file source (.unterminated why) line
  | emitting {w : Work} {finalize : Bool} {slots new : List Slot} {slot : Slot} {fault : Fault}
      (read : preprocess o file source = (w, none))
      (before : Layout.Before o w.symbols w.statements.reverse finalize slots)
      (stopped : ∃ location, (Layout.pass o.optimize w.symbols finalize slots).outcome =
        .error ⟨fault, location⟩)
      (known : ∀ s ∈ new, s.words.isSome = true) (emitted : slots[new.length]? = some slot)
      (failed : (Layout.emission o.optimize w.symbols finalize slots new new.length slot).outcome =
        .error fault) : ArisesOn o file source fault slot.statement.line

/-- A label in the middle of a line is reported without a place if it stands in the source, and on
the line that includes the file if it stands in a file. -/
inductive Failure.IsUnplaced (o : Options) (file source : String) : Failure → Prop
  | main {n : Nat} {token : String}
      (ends : (Tokenizer.tokenize file source).fault = some (.label (.misplaced file n token))) :
      IsUnplaced o file source ⟨.label (.misplaced file n token), none⟩
  | included {path token : String} {bytes : List UInt8} {n : Nat} {line : Line}
      (found : o.files.read path = .ok bytes)
      (ends : (Tokenizer.tokenize path (Text.decode bytes)).fault =
        some (.label (.misplaced path n token)))
      (including : Token.directive? line.first = some "include")
      (written : line.IsWritten o file source) :
      IsUnplaced o file source ⟨.label (.misplaced path n token), some (.ofLine line)⟩

namespace Preprocess

structure Placed (o : Options) (file source : String) (p : Preprocess) : Prop where
  readers : ∀ r ∈ p.readers, r.Holds (Line.IsWritten o file source)
  bodies : ∀ (key : String) m, p.work.macros[key]? = some m →
    ∀ line ∈ m.body, line.IsWritten o file source
  statements : ∀ st ∈ p.work.statements, st.line.IsWritten o file source
  started : ∀ r ∈ p.readers, r.last = none → r.below = [] ∧ r.replays = []
  nested : p.readers = [] ∨ Reader.Nested o file source p.readers

section

variable {o : Options} {file source : String} {p next : Preprocess} {w : Work} {failure : Failure}

theorem placed_start : Placed o file source (start file source) := by
  refine ⟨?_, ?_, ?_, ?_, ?_⟩
  · intro r member
    rw [List.mem_singleton.1 member]
    exact Reader.holds_ofSource (Line.isWritten_text .main) ""
  · intro key m known
    simp [start] at known
  · intro st member
    cases member
  · intro r member _
    rw [List.mem_singleton.1 member]
    exact ⟨rfl, rfl⟩
  · exact .inr (.main rfl rfl)

theorem Moves.nested (moves : Moves o p next)
    (nested : p.readers = [] ∨ Reader.Nested o file source p.readers) :
    next.readers = [] ∨ Reader.Nested o file source next.readers := by
  cases moves with
  | ended stack _ _ _ _ _ left =>
    rw [stack] at nested
    rw [left]
    cases nested with
    | inl none => cases none
    | inr nested =>
      cases nested with
      | main => exact .inl rfl
      | included _ _ _ _ waiting => exact .inr waiting
  | @read r taken line waiting readers stack took effect _ left =>
    have here : Reader.Nested o file source (r :: waiting) := by
      rw [stack] at nested
      cases nested with
      | inl none => cases none
      | inr nested => exact nested
    have rest := Reader.text_take took
    have captured := Reader.text_capture { line with global := taken.top.global } taken
    have shown : Reader.Nested o file source (showing taken line :: waiting) :=
      here.congr (captured.1.trans rest.1) (captured.2.trans rest.2)
    rw [left]
    right
    rcases effect.texts with ⟨r', rfl, named, fault, _⟩ | ⟨named, path, bytes, found, rfl⟩
    · exact shown.congr named fault
    · have last : (showing taken line).last = some (used taken line) := rfl
      exact shown.push last named found _

theorem Moves.placed (moves : Moves o p next) (aligned : ∀ r ∈ p.readers, r.Aligned)
    (placed : Placed o file source p) : Placed o file source next := by
  have readers : ∀ r ∈ next.readers, r.Holds (Line.IsWritten o file source) := by
    refine moves.holds Line.kept_isWritten aligned ?_ ?_ placed.readers
    · intro path bytes found
      exact Line.isWritten_text (.included found)
    · intro call m line _ known _ l member
      obtain ⟨first, inside, rfl⟩ := List.mem_map.1 member
      exact (placed.bodies _ m known first inside).becomes fun _ becomes => becomes.expanded _ _
  have nested := moves.nested placed.nested
  cases moves with
  | ended stack _ _ _ _ work left =>
    refine ⟨readers, ?_, ?_, ?_, nested⟩
    · rw [work]
      exact placed.bodies
    · rw [work]
      exact placed.statements
    · intro r member
      exact placed.started r (by simp [stack, ← left, member])
  | @read r taken line waiting made stack took effect step left =>
    obtain ⟨given, rest⟩ :=
      (placed.readers r (by simp [stack])).take (aligned r (by simp [stack])) took
    refine ⟨readers, ?_, ?_, ?_, nested⟩
    · exact effect.bodies (rest.showing Line.kept_isWritten given) placed.bodies
    · intro st member
      rcases step.statements with same | ⟨line', added, shown, read, same⟩
      · rw [same] at member
        exact placed.statements st member
      · rw [same, List.mem_cons] at member
        cases member with
        | inr old => exact placed.statements st old
        | inl new =>
          obtain ⟨_, _, same⟩ := bind_ok read
          cases same
          rw [new]
          -- The statement is that of the line, or of the data that stands for it.
          have written := Line.kept_isWritten.used taken given
          rcases shown with rfl | ⟨bytes, rfl⟩
          · exact written
          · exact written.becomes fun _ becomes => becomes.filled bytes
    · intro r' member fresh
      rw [left] at member
      cases List.mem_append.1 member with
      | inr old => exact placed.started r' (by simp [stack, old]) fresh
      | inl new =>
        rcases effect.texts with ⟨r'', rfl, _, _, last⟩ | ⟨_, path, bytes, _, rfl⟩
        · rw [List.mem_singleton.1 new, last] at fresh
          cases fresh
        · cases List.mem_cons.1 new with
          | inl inner =>
            rw [inner]
            exact ⟨rfl, rfl⟩
          | inr outer =>
            rw [List.mem_singleton.1 outer] at fresh
            cases fresh

theorem placed_reached (reached : Reaches o (start file source) p) : Placed o file source p := by
  induction reached with
  | refl => exact placed_start
  | tail earlier first ih => exact (moves_step first).placed (aligned_reached earlier) ih

inductive Fails (o : Options) (p : Preprocess) : Failure → Prop
  | reading {r taken : Reader} {waiting : List Reader} {line : Line} {fault : Fault}
      (stack : p.readers = r :: waiting) (took : r.take? = some (line, taken))
      (failed : (showing taken line).handle o p.work (used taken line) = .error fault) :
      Fails o p ⟨fault, some (.ofLine (used taken line))⟩
  | ending {r : Reader} {waiting : List Reader} {why : UnterminatedFault}
      (stack : p.readers = r :: waiting) (exhausted : r.take? = none)
      (opened : r.below ≠ [] ∨ r.replays ≠ []) : Fails o p (locateLast r (.unterminated why))
  | misplaced {r : Reader} {waiting : List Reader} {fault : Fault}
      (stack : p.readers = r :: waiting) (found : r.fault = some fault) :
      Fails o p (locateOuter waiting ⟨fault, none⟩)

theorem fails_read {r taken : Reader} {waiting : List Reader} {line : Line}
    (stack : p.readers = r :: waiting) (took : r.take? = some (line, taken))
    (read : readLine o p.work taken waiting line = .failed w failure) : Fails o p failure := by
  rw [readLine_eq] at read
  split at read
  · cases read
  · rename_i fault failed
    cases read
    exact .reading stack took failed

theorem fails_step (failed : step o p = .failed w failure) : Fails o p failure := by
  unfold step at failed
  split at failed
  · cases failed
  · rename_i r waiting stack
    split at failed
    · rename_i replay replays source
      split at failed
      · rename_i line rest lines
        exact fails_read stack (by simp [Reader.take?, source, lines]) failed
      · rename_i lines
        cases failed
        exact .ending stack (by simp [Reader.take?, source, lines]) (.inr (by simp [source]))
    · rename_i source
      split at failed
      · rename_i line pending lines
        exact fails_read stack (by simp [Reader.take?, source, lines]) failed
      · rename_i lines
        unfold endFile at failed
        split at failed
        · rename_i fault found
          cases failed
          exact .misplaced stack found
        · split at failed
          · cases failed
          · rename_i opened
            cases failed
            exact .ending stack (by simp [Reader.take?, source, lines])
              (.inl (by simpa using opened))

theorem fails_run {n : Nat} (ran : run o n p = (w, some failure)) :
    failure.fault = .breakdown .endless ∨ ∃ q, Reaches o p q ∧ Fails o q failure := by
  induction n generalizing p with
  | zero =>
    cases ran
    exact .inl rfl
  | succ n ih =>
    rw [run] at ran
    split at ran
    · rename_i next first
      cases ih ran with
      | inl endless => exact .inl endless
      | inr later =>
        obtain ⟨q, reached, fails⟩ := later
        exact .inr ⟨q, .head first reached, fails⟩
    · cases ran
    · rename_i failed
      cases ran
      exact .inr ⟨p, .refl, fails_step failed⟩

theorem work_run {n : Nat} (ran : run o n p = (w, none)) : ∃ q, Reaches o p q ∧ q.work = w := by
  induction n generalizing p with
  | zero => cases ran
  | succ n ih =>
    rw [run] at ran
    split at ran
    · rename_i next first
      obtain ⟨q, reached, same⟩ := ih ran
      exact ⟨q, .head first reached, same⟩
    · rename_i last
      cases ran
      exact ⟨p, .refl, (done_iff.1 last).2⟩
    · cases ran

end

end Preprocess

/-- A failure has the place of the line that its fault arises on, which is the place of a line of
one of the texts. -/
def Failure.IsLocated (o : Options) (file source : String) (failure : Failure) : Prop :=
  ∃ line, failure.location = some (.ofLine line) ∧ failure.fault.ArisesOn o file source line ∧
    ∃ path text written, IsText o file source path text ∧
      written ∈ (Tokenizer.tokenize path text).lines ∧ written.Becomes line ∧
      line.file = path ∧ line.number = written.number

section

variable {o : Options} {file source : String} {failure : Failure}

theorem Failure.isLocated_of_line {line : Line} (place : failure.location = some (.ofLine line))
    (arises : failure.fault.ArisesOn o file source line)
    (written : line.IsWritten o file source) : failure.IsLocated o file source := by
  obtain ⟨path, text, first, given, member, becomes⟩ := written
  obtain ⟨named, number⟩ := becomes.place
  rw [(Tokenizer.written_tokenize path text first member).1] at named
  exact ⟨line, place, arises, path, text, first, given, member, becomes, named, number⟩

theorem Reader.Nested.isUnplaced {r : Reader} {waiting : List Reader} {fault : Fault}
    (nested : Nested o file source (r :: waiting)) (found : r.fault = some fault)
    (written : ∀ outer ∈ waiting, outer.Holds (Line.IsWritten o file source)) :
    (Preprocess.locateOuter waiting ⟨fault, none⟩).IsUnplaced o file source := by
  cases nested with
  | main _ same =>
    rw [same] at found
    obtain ⟨n, token, rfl⟩ := Tokenizer.fault_tokenize found
    exact .main found
  | included read same last including _ =>
    rw [same] at found
    obtain ⟨n, token, rfl⟩ := Tokenizer.fault_tokenize found
    have place := (written _ (List.mem_cons_self ..)).last _ last
    simp only [Preprocess.locateOuter, List.head?_cons, Option.bind_some, last]
    exact .included read found including place

theorem Preprocess.Fails.located {p : Preprocess} (fails : Fails o p failure)
    (reached : Reaches o (start file source) p) :
    failure.IsLocated o file source ∨ failure.IsUnplaced o file source := by
  have placed := placed_reached reached
  cases fails with
  | @reading r taken waiting line fault stack took failed =>
    have aligned := aligned_reached reached r (by simp [stack])
    obtain ⟨written, _⟩ := (placed.readers r (by simp [stack])).take aligned took
    exact .inl (Failure.isLocated_of_line rfl (.reading reached stack took failed)
      (Line.kept_isWritten.used taken written))
  | @ending r waiting why stack exhausted opened =>
    have member : r ∈ p.readers := by simp [stack]
    cases last : r.last with
    | none =>
      -- A reader that has not read a line yet has nothing open.
      have fresh := placed.started r member last
      simp [fresh] at opened
    | some line =>
      simp only [locateLast, last]
      exact .inl (Failure.isLocated_of_line rfl (.ending reached stack exhausted opened last)
        ((placed.readers r member).last line last))
  | @misplaced r waiting fault stack found =>
    have nested := placed.nested
    rw [stack] at nested
    cases nested with
    | inl none => cases none
    | inr nested =>
      refine .inr (nested.isUnplaced found ?_)
      intro outer member
      exact placed.readers outer (by simp [stack, member])

end

namespace Layout

section

variable {o : Options} {symbols : Symbols} {statements : List Statement} {failure : Failure}

theorem failed_settle {count left : Nat} {slots : List Slot}
    (reached : after o.optimize symbols statements count = some slots)
    (allowed : count + left = o.passes)
    (failed : (settle o.optimize symbols count left slots).failure = some failure) :
    (∃ passes, failure.fault = .notConverged passes) ∨
    ∃ slots', Before o symbols statements true slots' ∧
      (pass o.optimize symbols true slots').outcome = .error failure := by
  induction left generalizing count slots with
  | zero =>
    cases failed
    exact .inl ⟨count, rfl⟩
  | succ left ih =>
    simp only [settle] at failed
    split at failed
    · rename_i stopped
      cases failed
      exact .inr ⟨slots, .finalizing reached (by omega), stopped⟩
    · rename_i changed passed
      split at failed
      · have next : after o.optimize symbols statements (count + 1) =
            some (pass o.optimize symbols true slots).slots := by
          rw [after, reached, Option.bind_some, Passed.slots?, passed]
        exact ih next (by omega) failed
      · cases failed

theorem failed_run (failed : (run o symbols statements).failure = some failure) :
    (∃ passes, failure.fault = .notConverged passes) ∨
    ∃ finalize slots, Before o symbols statements finalize slots ∧
      (pass o.optimize symbols finalize slots).outcome = .error failure := by
  simp only [run] at failed
  split at failed
  · rename_i stopped
    cases failed
    exact .inr ⟨false, _, .provisional, stopped⟩
  · rename_i passed
    have first : after o.optimize symbols statements 0 =
        some (pass o.optimize symbols false (start statements)).slots := by
      rw [after, Passed.slots?, passed]
    cases failed_settle first (Nat.zero_add _) failed with
    | inl unsettled => exact .inl unsettled
    | inr found =>
      obtain ⟨slots, before, stopped⟩ := found
      exact .inr ⟨true, slots, before, stopped⟩

theorem Before.line {finalize : Bool} {slots : List Slot} {slot : Slot}
    (before : Before o symbols statements finalize slots) (member : slot ∈ slots) :
    ∃ st ∈ statements, slot.statement.line = st.line := by
  have fresh : slots.map (·.statement.fresh) = statements.map Statement.fresh := by
    cases before with
    | provisional =>
      rw [start, List.map_map]
      rfl
    | finalizing reached _ => exact fresh_after reached
  have entry : slot.statement.fresh ∈ statements.map Statement.fresh := by
    rw [← fresh]
    exact List.mem_map_of_mem member
  obtain ⟨st, inside, same⟩ := List.mem_map.1 entry
  have kept : slot.statement.fresh.line = st.fresh.line := by rw [same]
  exact ⟨st, inside, kept⟩

end

end Layout

section

variable {o : Options} {file source : String} {failure : Failure}

theorem isLocated_or_isUnplaced (failed : (assemble o file source).outcome = .error failure)
    (settled : ∀ passes, failure.fault ≠ .notConverged passes)
    (ended : failure.fault ≠ .breakdown .endless) :
    failure.IsLocated o file source ∨ failure.IsUnplaced o file source := by
  unfold assemble at failed
  split at failed
  · rename_i preprocessed
    cases failed
    cases Preprocess.fails_run preprocessed with
    | inl endless => exact absurd endless ended
    | inr found =>
      obtain ⟨p, reached, fails⟩ := found
      exact fails.located reached
  · rename_i w preprocessed
    dsimp only at failed
    split at failed
    · rename_i laid
      cases failed
      cases Layout.failed_run laid with
      | inl unsettled =>
        obtain ⟨passes, same⟩ := unsettled
        exact absurd same (settled passes)
      | inr found =>
        obtain ⟨finalize, slots, before, stopped⟩ := found
        obtain ⟨new, _, slot, here, rfl, known, place, error⟩ := Layout.failed_of_pass stopped
        obtain ⟨st, member, same⟩ := before.line (List.mem_of_getElem? here)
        obtain ⟨p, reached, rfl⟩ := Preprocess.work_run preprocessed
        have placed := Preprocess.placed_reached reached
        have written := placed.statements st (List.mem_reverse.1 member)
        refine .inl (Failure.isLocated_of_line place ?_ (same ▸ written))
        exact .emitting preprocessed before ⟨_, stopped⟩ known here error
    · cases failed

theorem Fault.ArisesOn.isMisplaced {fault : Fault} {line : Line}
    (arises : fault.ArisesOn o file source line) : fault.isMisplaced = false := by
  cases arises with
  | reading _ _ _ failed => exact isMisplaced_of_isOfLine (Reader.reads_handle _ _ _ _ _ failed)
  | ending => rfl
  | emitting _ _ _ _ _ failed =>
    have emitted := Statement.emits_emit _ _ _ _ _ _ failed
    exact isMisplaced_of_isOfLine (isOfLine_of_isEmitted emitted)

end

/-- Every failure other than one of convergence has the place of the line on which it arises, and
this line comes from one that was written at that place, in the source or in a file that it
includes. The exception is a label in the middle of a line, which is reported on no line or on the
line that includes its file. -/
theorem failures_are_located {o : Options} {file source : String} {failure : Failure}
    (failed : (assemble o file source).outcome = .error failure)
    (settled : ∀ passes, failure.fault ≠ .notConverged passes)
    (ended : failure.fault ≠ .breakdown .endless) :
    (failure.fault.isMisplaced = false → failure.IsLocated o file source) ∧
    (failure.fault.isMisplaced = true → failure.IsUnplaced o file source) := by
  cases isLocated_or_isUnplaced failed settled ended with
  | inl located =>
    obtain ⟨_, _, arises, _⟩ := id located
    refine ⟨fun _ => located, ?_⟩
    intro misplaced
    rw [arises.isMisplaced] at misplaced
    cases misplaced
  | inr unplaced =>
    refine ⟨?_, fun _ => unplaced⟩
    intro placed
    cases unplaced <;> cases placed

/-- A single file. -/
def FileStore.single (name text : String) : FileStore :=
  ⟨fun path =>
    if path = name then .ok text.toUTF8.toList else .error ⟨"open", path, .doesNotExist⟩⟩

-- The line that fails is in the body of a macro that an included file defines, and is reported
-- there.
theorem failures_are_located_expanded :
    let o : Options :=
      { files := .single "/lib" ".macro check(x)\n.if x > 2\n.error too large\n.end\n.end\n" }
    let source := ".include \"/lib\"\ncheck(3)\n"
    let failure : Failure :=
      ⟨.user "too large", some ⟨"/lib", 3, "", ["CHECK_1"], ".error too large"⟩⟩
    (assemble o "main" source).outcome = .error failure ∧ failure.IsLocated o "main" source := by
  intro o source failure
  have failed : (assemble o "main" source).outcome = .error failure := by decide +kernel
  have settled : ∀ passes, failure.fault ≠ .notConverged passes := by
    intro passes same
    cases same
  obtain ⟨located, _⟩ := failures_are_located failed settled (by decide)
  exact ⟨failed, located rfl⟩

-- A label in the middle of a line of the source has no place, and one of an included file that of
-- the line that includes it.
theorem misplaced_labels_lose_their_line :
    (assemble {} "main" "SET :foo").outcome =
      .error ⟨.label (.misplaced "main" 1 ":foo"), none⟩ ∧
    (assemble { files := .single "/lib" "SET A, 1\nSET :foo\n" } "main"
        ".include \"/lib\"\n").outcome =
      .error ⟨.label (.misplaced "/lib" 2 ":foo"),
        some ⟨"main", 1, "", [], ".include \"/lib\""⟩⟩ := by
  constructor <;> decide +kernel

end WordAsm
