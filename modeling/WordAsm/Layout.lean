import WordAsm.Preprocess.Directive

/-!
Layout: every pass emits the statements in order, each at the position that the lengths before
it give. A provisional pass puts zeros for labels that have no position yet; finalizing passes
follow until the words stay the same.
-/
namespace WordAsm

/-- A statement and the words that it had in the last pass. -/
structure Slot where
  statement : Statement
  words : Option (List UInt16)
  deriving DecidableEq, Repr

namespace Slot

def size (s : Slot) : Nat := (s.words.map List.length).getD 0

end Slot

namespace Layout

def start (statements : List Statement) : List Slot := statements.map (⟨·, none⟩)

def total : Nat → List Slot → Nat
  | 0, _ => 0
  | _ + 1, [] => 0
  | n + 1, slot :: rest => slot.size + total n rest

/-- The position of the statement with that index, if the one before it has been emitted. -/
def position (slots : List Slot) : Nat → Option Nat
  | 0 => some 0
  | i + 1 =>
    match slots[i]? with
    | some ⟨_, some _⟩ => some (total (i + 1) slots)
    | _ => none

-- `done` has the last slot first, so that a pass need not append to it.
def positionAmong (done rest : List Slot) : Nat → Option Nat
  | 0 => some 0
  | i + 1 =>
    if i < done.length then
      match done.drop (done.length - 1 - i) with
      | ⟨_, some words⟩ :: earlier => some (words.length + total i earlier)
      | _ => none
    else
      match rest[i - done.length]? with
      | some ⟨_, some _⟩ => some (total done.length done + total (i + 1 - done.length) rest)
      | _ => none

theorem total_eq_foldr (n : Nat) (slots : List Slot) :
    total n slots = ((slots.take n).map Slot.size).foldr (· + ·) 0 := by
  induction n generalizing slots with
  | zero => simp [total]
  | succ n ih =>
    cases slots with
    | nil => simp [total]
    | cons slot rest => simp [total, ih]

theorem total_reverse_append {n : Nat} {done : List Slot} (bound : n ≤ done.length)
    (rest : List Slot) :
    total n (done.reverse ++ rest) = total n (done.drop (done.length - n)) := by
  simp only [total_eq_foldr, ← List.sum_eq_foldr]
  rw [List.take_append_of_le_length (by simpa using bound), List.take_reverse, List.map_reverse,
    List.sum_reverse, List.take_of_length_le (l := done.drop (done.length - n)) (by simp; omega)]

theorem total_reverse_past {n : Nat} {done : List Slot} (bound : done.length ≤ n)
    (rest : List Slot) :
    total n (done.reverse ++ rest) = total done.length done + total (n - done.length) rest := by
  simp only [total_eq_foldr, ← List.sum_eq_foldr]
  rw [List.take_append, List.take_of_length_le (by simpa using bound), List.map_append,
    List.map_reverse, List.sum_append, List.sum_reverse, List.length_reverse,
    List.take_of_length_le (l := done) (Nat.le_refl _)]

theorem positionAmong_eq (done rest : List Slot) (i : Nat) :
    positionAmong done rest i = position (done.reverse ++ rest) i := by
  cases i with
  | zero => rfl
  | succ i =>
    simp only [positionAmong, position]
    by_cases inside : i < done.length
    · rw [if_pos inside, total_reverse_append inside,
        List.getElem?_append_left (by simpa using inside), List.getElem?_reverse inside]
      have start : done.length - (i + 1) = done.length - 1 - i := by omega
      rw [start, ← List.head?_drop]
      cases done.drop (done.length - 1 - i) with
      | nil => rfl
      | cons slot earlier =>
        rcases slot with ⟨statement, _ | words⟩
        · rfl
        · simp [total, Slot.size]
    · have past : done.length ≤ i := Nat.le_of_not_lt inside
      rw [if_neg inside, total_reverse_past (Nat.le_succ_of_le past),
        List.getElem?_append_right (by simpa using past), List.length_reverse]

structure Passed where
  outcome : Except Failure Bool
  slots : List Slot
  notes : List Note

def passFrom (optimize : Bool) (symbols : Symbols) (finalize : Bool) (done : List Slot)
    (pos : Nat) (changed : Bool) : List Slot → Passed
  | [] => ⟨.ok changed, done.reverse, []⟩
  | slot :: rest =>
    let ctx : Context := ⟨symbols, positionAmong done (slot :: rest), finalize⟩
    let e := slot.statement.emit optimize ctx pos (slot.words.map List.length)
    match e.outcome with
    | .error fault =>
      ⟨.error (Failure.locate slot.statement.line ⟨fault, none⟩),
        done.reverse ++ { slot with statement := e.statement } :: rest, e.notes⟩
    | .ok words =>
      let later := passFrom optimize symbols finalize (⟨e.statement, some words⟩ :: done)
        (pos + words.length) (changed || slot.words != some words) rest
      { later with notes := e.notes ++ later.notes }

def pass (optimize : Bool) (symbols : Symbols) (finalize : Bool) (slots : List Slot) : Passed :=
  passFrom optimize symbols finalize [] 0 false slots

structure Settled where
  failure : Option Failure
  slots : List Slot
  notes : List Note

def settle (optimize : Bool) (symbols : Symbols) (count : Nat) : Nat → List Slot → Settled
  | 0, slots => ⟨some ⟨.notConverged count, none⟩, slots, []⟩
  | left + 1, slots =>
    let p := pass optimize symbols true slots
    match p.outcome with
    | .error failure => ⟨some failure, p.slots, p.notes⟩
    | .ok changed =>
      let notes := p.notes ++ [.pass (count + 1) changed]
      if changed then
        let later := settle optimize symbols (count + 1) left p.slots
        { later with notes := notes ++ later.notes }
      else ⟨none, p.slots, notes ++ [.converged (count + 1)]⟩

def run (o : Options) (symbols : Symbols) (statements : List Statement) : Settled :=
  let p := pass o.optimize symbols false (start statements)
  match p.outcome with
  | .error failure => ⟨some failure, p.slots, p.notes⟩
  | .ok _ =>
    let later := settle o.optimize symbols 0 o.passes p.slots
    { later with notes := p.notes ++ later.notes }

end Layout

end WordAsm
