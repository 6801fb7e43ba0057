import Mathlib.Logic.Relation
import WordAsm.Preprocess.Run

/-!
Runs of preprocessing without a limit on the number of lines. A run finishes, fails, or goes on
for ever; the limit of the options only cuts the last kind short.
-/
namespace WordAsm.Preprocess

/-- The run from this state ends well, and has gathered this work. -/
inductive Finishes (o : Options) : Preprocess → Work → Prop where
  | done {p : Preprocess} {w : Work} (last : step o p = .done w) : Finishes o p w
  | more {p next : Preprocess} {w : Work} (first : step o p = .more next)
      (rest : Finishes o next w) : Finishes o p w

/-- The run from the first state comes through the second one. -/
def Reaches (o : Options) : Preprocess → Preprocess → Prop :=
  Relation.ReflTransGen fun p next => step o p = .more next

section

variable {o : Options} {p q next : Preprocess} {w w' : Work}

theorem Finishes.of_step (first : step o p = .more next) (finishes : Finishes o p w) :
    Finishes o next w := by
  cases finishes with
  | done last =>
    rw [first] at last
    cases last
  | more first' rest =>
    rw [first] at first'
    cases first'
    exact rest

theorem finishes_of_reaches (reaches : Reaches o p q) : Finishes o p w ↔ Finishes o q w := by
  induction reaches with
  | refl => exact Iff.rfl
  | tail _ first ih =>
    rw [ih]
    constructor
    · exact Finishes.of_step first
    · exact Finishes.more first

theorem Finishes.unique (finishes : Finishes o p w) (finishes' : Finishes o p w') : w = w' := by
  induction finishes with
  | done last =>
    cases finishes' with
    | done last' =>
      rw [last] at last'
      cases last'
      rfl
    | more first' _ =>
      rw [last] at first'
      cases first'
  | more first _ ih => exact ih (finishes'.of_step first)

theorem finishes_iff : Finishes o p w ↔ ∃ n, run o n p = (w, none) := by
  constructor
  · intro finishes
    induction finishes with
    | done last => exact ⟨1, by rw [run, last]⟩
    | more first _ ih =>
      obtain ⟨n, ran⟩ := ih
      exact ⟨n + 1, by simp only [run, first, ran]⟩
  · rintro ⟨n, ran⟩
    induction n generalizing p with
    | zero => cases ran
    | succ n ih =>
      rw [run] at ran
      split at ran
      · rename_i first
        exact .more first (ih ran)
      · rename_i last
        cases ran
        exact .done last
      · cases ran

def advance (o : Options) : Nat → Preprocess → Option Preprocess
  | 0, p => some p
  | n + 1, p =>
    match step o p with
    | .more next => advance o n next
    | .done _ | .failed _ _ => none

theorem reaches_of_advance {n : Nat} (advanced : advance o n p = some q) : Reaches o p q := by
  induction n generalizing p with
  | zero =>
    cases advanced
    exact .refl
  | succ n ih =>
    rw [advance] at advanced
    split at advanced
    · rename_i next first
      exact .head first (ih advanced)
    · cases advanced
    · cases advanced

theorem Finishes.simulate {related : Preprocess → Preprocess → Prop} {result : Work → Work → Prop}
    (steps : ∀ p p', related p p' →
      (∃ next next', step o p = .more next ∧ step o p' = .more next' ∧ related next next') ∨
      (∃ w w', step o p = .done w ∧ step o p' = .done w' ∧ result w w') ∨
      ∃ w failure, step o p = .failed w failure)
    {p p' : Preprocess} (start : related p p') (finishes : Finishes o p w) :
    ∃ w', Finishes o p' w' ∧ result w w' := by
  induction finishes generalizing p' with
  | done last =>
    rcases steps _ _ start with ⟨_, _, first, _⟩ | ⟨w, w', last', done, same⟩ | ⟨_, _, failed⟩
    · rw [last] at first
      cases first
    · rw [last] at last'
      cases last'
      exact ⟨w', .done done, same⟩
    · rw [last] at failed
      cases failed
  | more first _ ih =>
    rcases steps _ _ start with ⟨_, _, first', more, kept⟩ | ⟨_, _, last, _⟩ | ⟨_, _, failed⟩
    · rw [first] at first'
      cases first'
      obtain ⟨w', finishes, same⟩ := ih kept
      exact ⟨w', .more more finishes, same⟩
    · rw [first] at last
      cases last
    · rw [first] at failed
      cases failed

end

theorem run_limit (o : Options) (limit n : Nat) (p : Preprocess) :
    run { o with lineLimit := limit } n p = run o n p := by
  induction n generalizing p with
  | zero => rfl
  | succ n ih =>
    have here : step { o with lineLimit := limit } p = step o p := rfl
    simp only [run, here, ih]

end WordAsm.Preprocess

namespace WordAsm

theorem preprocess_limit (o : Options) (limit : Nat) (file source : String) :
    preprocess { o with lineLimit := limit } file source =
      Preprocess.run o limit (Preprocess.start file source) :=
  Preprocess.run_limit o limit limit (Preprocess.start file source)

end WordAsm
