import Mathlib.Algebra.GroupWithZero.Nat
import WordAsm.Proofs.LayoutPasses

/-!
The states that layout goes through: one before each statement of a pass, and one at its end. In
each of them the statements that have no words yet come last, so that the statement before another
one tells whether it has a position, and the position that a pass has counted up to is the one that
the slots give.
-/
namespace WordAsm.Layout

/-- Statements without words come last. A statement has a position exactly if all those before it
have words, and it is the sum of their lengths. -/
structure Orderly (slots : List Slot) : Prop where
  waiting : (slots.map Slot.words).filter Option.isNone <:+ slots.map Slot.words
  known : ∀ i ≤ slots.length,
    (position slots i).isSome = (slots.take i).all (·.words.isSome)
  place : ∀ {i pos}, position slots i = some pos →
    pos = (((slots.take i).filterMap Slot.words).map List.length).sum

theorem total_eq_sum (n : Nat) (slots : List Slot) :
    total n slots = (((slots.take n).filterMap Slot.words).map List.length).sum := by
  induction n generalizing slots with
  | zero => simp [total]
  | succ n ih =>
    cases slots with
    | nil => simp [total]
    | cons slot rest =>
      rcases slot with ⟨statement, _ | words⟩
      · simp [total, Slot.size, ih]
      · simp [total, Slot.size, ih]

theorem split_of_waiting {slots : List Slot}
    (waiting : (slots.map Slot.words).filter Option.isNone <:+ slots.map Slot.words) :
    ∃ front back, slots = front ++ back ∧ (∀ slot ∈ front, slot.words.isSome = true) ∧
      ∀ slot ∈ back, slot.words = none := by
  obtain ⟨filled, split⟩ := waiting
  obtain ⟨front, back, rfl, rfl, rest⟩ := List.map_eq_append_iff.1 split.symm
  refine ⟨front, back, rfl, ?_, ?_⟩
  · have without : (front.map Slot.words).filter Option.isNone = [] := by
      have again := congrArg (List.filter Option.isNone) rest
      rw [List.filter_filter, List.map_append, List.filter_append] at again
      simpa only [Bool.and_self, List.self_eq_append_left] using again
    intro slot member
    have filled := List.filter_eq_nil_iff.1 without slot.words (List.mem_map_of_mem member)
    simpa [Option.isSome_iff_ne_none] using filled
  · intro slot member
    have empty := List.mem_map_of_mem (f := Slot.words) member
    rw [rest] at empty
    simpa using (List.mem_filter.1 empty).2

theorem orderly_of_waiting {slots : List Slot}
    (waiting : (slots.map Slot.words).filter Option.isNone <:+ slots.map Slot.words) :
    Orderly slots := by
  obtain ⟨front, back, rfl, filled, empty⟩ := split_of_waiting waiting
  refine ⟨waiting, ?_, ?_⟩
  · intro i bound
    cases i with
    | zero => rfl
    | succ i =>
      have here : (front ++ back)[i]? = some (front ++ back)[i] := List.getElem?_eq_getElem bound
      rw [position_succ, Option.isSome_map, here, Option.bind_some]
      by_cases inside : i < front.length
      · rw [List.getElem_append_left inside, filled _ (List.getElem_mem inside),
          List.take_append_of_le_length inside, eq_comm, List.all_eq_true]
        intro slot member
        exact filled slot (List.mem_of_mem_take member)
      · have last : (front ++ back)[i].words = none := by
          rw [List.getElem_append_right (Nat.le_of_not_lt inside)]
          exact empty _ (List.getElem_mem _)
        rw [last, eq_comm, Option.isSome_none, List.all_eq_false]
        exact ⟨_, List.mem_take_iff_getElem.2 ⟨i, by omega, rfl⟩, by simp [last]⟩
  · intro i pos placed
    rw [← total_eq_sum]
    cases i with
    | zero =>
      cases placed
      rfl
    | succ i =>
      rw [position_succ] at placed
      obtain ⟨_, _, same⟩ := Option.map_eq_some_iff.1 placed
      exact same.symm

/-- Layout in the middle of a pass. -/
structure State where
  /-- How many finalizing passes have begun; none have in the provisional pass. -/
  count : Nat
  /-- What this pass has emitted, the last one first, and the position after it. -/
  done : List Slot
  pos : Nat
  changed : Bool
  rest : List Slot

namespace State

def first (statements : List Statement) : State := ⟨0, [], 0, false, start statements⟩

def slots (s : State) : List Slot := s.done.reverse ++ s.rest

def context (symbols : Symbols) (s : State) : Context :=
  ⟨symbols, positionAmong s.done s.rest, s.count != 0⟩

def emit (o : Options) (symbols : Symbols) (s : State) (slot : Slot) : Emission :=
  slot.statement.emit o.optimize (s.context symbols) s.pos (slot.words.map List.length)

def next? (o : Options) (symbols : Symbols) (s : State) : Option State :=
  match s.rest with
  | [] =>
    if (s.count == 0 || s.changed) && decide (s.count < o.passes) then
      some ⟨s.count + 1, [], 0, false, s.done.reverse⟩
    else none
  | slot :: rest =>
    match (s.emit o symbols slot).outcome with
    | .error _ => none
    | .ok words =>
      some ⟨s.count, ⟨(s.emit o symbols slot).statement, some words⟩ :: s.done,
        s.pos + words.length, s.changed || slot.words != some words, rest⟩

def resume (o : Options) (symbols : Symbols) (s : State) : Option Failure × List Slot :=
  let p := passFrom o.optimize symbols (s.count != 0) s.done s.pos s.changed s.rest
  match p.outcome with
  | .error failure => (some failure, p.slots)
  | .ok changed =>
    if s.count == 0 || changed then
      let later := settle o.optimize symbols s.count (o.passes - s.count) p.slots
      (later.failure, later.slots)
    else (none, p.slots)

section

variable {o : Options} {symbols : Symbols} {s s' : State}

theorem next_cases (next : s.next? o symbols = some s') :
    (∃ slot rest words, s.rest = slot :: rest ∧ (s.emit o symbols slot).outcome = .ok words ∧
      s' = ⟨s.count, ⟨(s.emit o symbols slot).statement, some words⟩ :: s.done,
        s.pos + words.length, s.changed || slot.words != some words, rest⟩) ∨
    (s.rest = [] ∧ (s.count = 0 ∨ s.changed = true) ∧ s.count < o.passes ∧
      s' = ⟨s.count + 1, [], 0, false, s.done.reverse⟩) := by
  unfold next? at next
  split at next
  · rename_i ended
    split at next
    · rename_i allowed
      simp only [Bool.and_eq_true, Bool.or_eq_true, beq_iff_eq, decide_eq_true_eq] at allowed
      cases next
      exact .inr ⟨ended, allowed.1, allowed.2, rfl⟩
    · cases next
  · rename_i slot rest shown
    split at next
    · cases next
    · rename_i words emitted
      cases next
      exact .inl ⟨slot, rest, words, shown, emitted, rfl⟩

theorem resume_next (next : s.next? o symbols = some s') :
    s'.resume o symbols = s.resume o symbols := by
  obtain ⟨slot, rest, words, shown, emitted, rfl⟩ | ⟨ended, goesOn, allowed, rfl⟩ := next_cases next
  · rw [emit, context, shown] at emitted
    simp only [resume, emit, context, shown, passFrom, emitted]
  · obtain ⟨left, passes⟩ : ∃ left, o.passes - s.count = left + 1 :=
      ⟨o.passes - s.count - 1, by omega⟩
    have after : o.passes - (s.count + 1) = left := by omega
    have again : (s.count == 0 || s.changed) = true := by simpa using goesOn
    have begun : (s.count + 1 != 0) = true := by simp
    have counted : (s.count + 1 == 0) = false := by simp
    simp only [resume, ended, passFrom, again, if_true, passes, settle, pass, after, begun, counted,
      Bool.false_or]
    generalize passFrom o.optimize symbols true [] 0 false s.done.reverse = p
    cases p.outcome with
    | error failure => rfl
    | ok changed =>
      dsimp only
      split <;> rfl

theorem words_resume (last : s.next? o symbols = none) :
    (s.resume o symbols).2.map Slot.words = s.slots.map Slot.words := by
  unfold next? at last
  split at last
  · rename_i ended
    have all : s.slots = s.done.reverse := by simp [slots, ended]
    simp only [resume, ended, passFrom]
    rw [all]
    split
    · rename_i goesOn
      have passes : o.passes - s.count = 0 := by
        simp only [goesOn, Bool.true_and, decide_eq_true_eq, ite_eq_right_iff, reduceCtorEq,
          imp_false] at last
        omega
      simp only [passes, settle]
    · rfl
  · rename_i slot rest shown
    split at last
    · rename_i fault failed
      rw [emit, context, shown] at failed
      simp only [resume, slots, shown, passFrom, failed, List.map_append, List.map_cons]
    · cases last

structure Sound (s : State) : Prop where
  emitted : ∀ slot ∈ s.done, slot.words.isSome = true
  counted : s.pos = total s.done.length s.done
  waiting : (s.rest.map Slot.words).filter Option.isNone <:+ s.rest.map Slot.words

theorem sound_first (statements : List Statement) : (first statements).Sound := by
  refine ⟨by simp [first], rfl, ?_⟩
  have all : ((start statements).map Slot.words).filter Option.isNone =
      (start statements).map Slot.words := by
    simp [start, List.filter_eq_self]
  exact ⟨[], all⟩

theorem Sound.filled (sound : s.Sound) :
    (s.done.reverse.map Slot.words).filter Option.isNone = [] := by
  rw [List.filter_eq_nil_iff, List.forall_mem_map]
  intro slot member
  simpa [Option.isSome_iff_ne_none] using sound.emitted slot (List.mem_reverse.1 member)

theorem Sound.next (sound : s.Sound) (next : s.next? o symbols = some s') : s'.Sound := by
  obtain ⟨slot, rest, words, shown, _, rfl⟩ | ⟨_, _, _, rfl⟩ := next_cases next
  · refine ⟨List.forall_mem_cons.2 ⟨rfl, sound.emitted⟩, ?_, ?_⟩
    · rw [sound.counted]
      simp [total, Slot.size, Nat.add_comm]
    · have waiting := sound.waiting
      rw [shown, List.map_cons] at waiting
      have tail := List.suffix_cons slot.words (rest.map Slot.words)
      exact List.suffix_of_suffix_length_le ((tail.filter Option.isNone).trans waiting) tail
        (List.length_filter_le _ _)
  · refine ⟨by simp, rfl, ?_⟩
    rw [sound.filled]
    exact List.nil_suffix

theorem Sound.orderly (sound : s.Sound) : Orderly s.slots := by
  apply orderly_of_waiting
  rw [slots, List.map_append, List.filter_append, sound.filled, List.nil_append]
  exact sound.waiting.trans (List.suffix_append _ _)

theorem Sound.position (sound : s.Sound) : position s.slots s.done.length = some s.pos := by
  have bound : s.done.length ≤ s.slots.length := by simp [slots]
  have known : (Layout.position s.slots s.done.length).isSome = true := by
    rw [sound.orderly.known _ bound, List.all_eq_true, slots,
      List.take_left' (List.length_reverse)]
    intro slot member
    exact sound.emitted slot (List.mem_reverse.1 member)
  obtain ⟨pos, placed⟩ := Option.isSome_iff_exists.1 known
  rw [placed, sound.orderly.place placed, ← total_eq_sum, slots,
    total_reverse_past (Nat.le_refl _), Nat.sub_self, sound.counted]
  rfl

theorem words_next {slot : Slot} {later : List Slot} {words : List UInt16}
    (shown : s.rest = slot :: later) (emitted : (s.emit o symbols slot).outcome = .ok words) :
    ∃ s', s.next? o symbols = some s' ∧
      s'.slots.map Slot.words = (s.slots.map Slot.words).set s.done.length (some words) := by
  simp only [next?, shown, emitted]
  refine ⟨_, rfl, ?_⟩
  simp [slots, shown]

theorem fresh_next (next : s.next? o symbols = some s') :
    s'.slots.map (·.statement.fresh) = s.slots.map (·.statement.fresh) := by
  obtain ⟨slot, rest, words, shown, _, rfl⟩ | ⟨ended, _, _, rfl⟩ := next_cases next
  · simp [slots, shown, emit, Statement.fresh_emit]
  · simp [slots, ended]

theorem next_decreases (next : s.next? o symbols = some s') :
    Prod.Lex (· < ·) (· < ·) (o.passes - s'.count, s'.rest.length)
      (o.passes - s.count, s.rest.length) := by
  obtain ⟨slot, rest, words, shown, _, rfl⟩ | ⟨_, _, allowed, rfl⟩ := next_cases next
  · refine .right _ ?_
    simp [shown]
  · exact .left _ _ (by dsimp only; omega)

end

/-- The state of layout after so many steps. -/
def after (o : Options) (symbols : Symbols) (statements : List Statement) : Nat → Option State
  | 0 => some (first statements)
  | n + 1 => (after o symbols statements n).bind (next? o symbols)

section

variable {o : Options} {symbols : Symbols} {statements : List Statement}

theorem after_induction {holds : State → Prop} (begun : holds (first statements))
    (step : ∀ s s', holds s → s.next? o symbols = some s' → holds s') {n : Nat} {s : State}
    (reached : after o symbols statements n = some s) : holds s := by
  induction n generalizing s with
  | zero =>
    cases reached
    exact begun
  | succ n ih =>
    obtain ⟨before, earlier, next⟩ := Option.bind_eq_some_iff.1 reached
    exact step before s (ih earlier) next

theorem exists_last {n : Nat} {s : State} (reached : after o symbols statements n = some s) :
    ∃ m last, after o symbols statements m = some last ∧ last.next? o symbols = none := by
  cases next : s.next? o symbols with
  | none => exact ⟨n, s, reached, next⟩
  | some s' =>
    have reached' : after o symbols statements (n + 1) = some s' := by
      rw [after, reached, Option.bind_some, next]
    exact exists_last reached'
termination_by (o.passes - s.count, s.rest.length)
decreasing_by exact next_decreases next

theorem resume_first (o : Options) (symbols : Symbols) (statements : List Statement) :
    (first statements).resume o symbols =
      ((run o symbols statements).failure, (run o symbols statements).slots) := by
  simp only [resume, first, run, pass, bne_self_eq_false, beq_self_eq_true, Bool.true_or, if_true,
    Nat.sub_zero]
  cases (passFrom o.optimize symbols false [] 0 false (start statements)).outcome with
  | error failure => rfl
  | ok changed => rfl

theorem sound_after {n : Nat} {s : State} (reached : after o symbols statements n = some s) :
    s.Sound :=
  after_induction (sound_first statements) (fun _ _ sound next => sound.next next) reached

theorem resume_after {n : Nat} {s : State} (reached : after o symbols statements n = some s) :
    s.resume o symbols =
      ((run o symbols statements).failure, (run o symbols statements).slots) :=
  after_induction (resume_first o symbols statements)
    (fun _ _ same next => (resume_next next).trans same) reached

theorem fresh_after {n : Nat} {s : State} (reached : after o symbols statements n = some s) :
    s.slots.map (·.statement.fresh) = statements.map Statement.fresh :=
  after_induction (by simp [first, slots, start])
    (fun _ _ same next => (fresh_next next).trans same) reached

end

end State

theorem orderly_run (o : Options) (symbols : Symbols) (statements : List Statement) :
    Orderly (run o symbols statements).slots := by
  obtain ⟨n, last, reached, ended⟩ := @State.exists_last o symbols statements 0 _ rfl
  have words := State.words_resume ended
  rw [State.resume_after reached] at words
  apply orderly_of_waiting
  rw [words]
  exact (State.sound_after reached).orderly.waiting

/-- Looking at the preceding statement is enough. In every state of layout the slots are those of
the program, and the ones without words come last, so that a statement has a position exactly if
all those before it have words; this is the position that it is emitted at. A statement that emits
nothing has empty words from then on, and is not without words. The rest of layout comes from each
of these states to what layout leaves, of which the same holds. -/
theorem preceding_statement_is_enough (o : Options) (symbols : Symbols)
    (statements : List Statement) (n : Nat) (s : State)
    (reached : State.after o symbols statements n = some s) :
    s.slots.map (·.statement.fresh) = statements.map Statement.fresh ∧
    Orderly s.slots ∧
    (s.context symbols).position = position s.slots ∧
    position s.slots s.done.length = some s.pos ∧
    (∀ slot later words, s.rest = slot :: later → (s.emit o symbols slot).outcome = .ok words →
      ∃ s', State.after o symbols statements (n + 1) = some s' ∧
        s'.slots.map Slot.words = (s.slots.map Slot.words).set s.done.length (some words)) ∧
    s.resume o symbols =
      ((run o symbols statements).failure, (run o symbols statements).slots) ∧
    Orderly (run o symbols statements).slots := by
  have sound := State.sound_after reached
  refine ⟨State.fresh_after reached, sound.orderly, ?_, sound.position, ?_,
    State.resume_after reached, orderly_run o symbols statements⟩
  · exact funext (positionAmong_eq s.done s.rest)
  · intro slot later words shown emitted
    obtain ⟨s', next, same⟩ := State.words_next shown emitted
    refine ⟨s', ?_, same⟩
    rw [State.after, reached, Option.bind_some, next]

def emptyLines : Work :=
  (preprocess {} "empty" ".fill 0\nDAT \"\"\n.align 1\nSET A, end\n:end DAT end").1

-- After three statements of the provisional pass.
theorem preceding_statement_is_enough_empty :
    ∃ s, State.after {} emptyLines.symbols emptyLines.statements.reverse 3 = some s ∧
      s.slots.map Slot.words = [some [], some [], some [], none, none] ∧
      Orderly s.slots ∧ position s.slots 3 = some s.pos ∧
      Orderly (run {} emptyLines.symbols emptyLines.statements.reverse).slots := by
  have shown : (State.after {} emptyLines.symbols emptyLines.statements.reverse 3).map
      (fun s => (s.slots.map Slot.words, s.done.length)) =
        some ([some [], some [], some [], none, none], 3) := by
    decide +kernel
  obtain ⟨s, reached, same⟩ := Option.map_eq_some_iff.1 shown
  obtain ⟨words, length⟩ := Prod.mk.inj same
  obtain ⟨_, orderly, _, placed, _, _, left⟩ :=
    preceding_statement_is_enough {} emptyLines.symbols emptyLines.statements.reverse 3 s reached
  rw [length] at placed
  exact ⟨s, reached, words, orderly, placed, left⟩

end WordAsm.Layout
