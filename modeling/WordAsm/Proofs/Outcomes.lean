import WordAsm.Proofs.Displacement
import WordAsm.Proofs.StagedSimplification

/-!
How a simplification ends when symbols have values and calls have none: with a number, with a
tree that is still open, or with a division by zero. The outcome of a tree is made of the outcomes
of its operands, and folding a part of it beforehand does not change it.
-/
namespace WordAsm

def Valuation.ofSymbols (values : String → Option Int64) : Valuation := ⟨values, fun _ _ => none⟩

namespace Expr

inductive Outcome where
  | divisionByZero
  | unknown
  | number (n : Int64)
  deriving DecidableEq, Repr

namespace Outcome

def ofFold : Except (EvalError Empty) (Option Int64) → Outcome
  | .error _ => divisionByZero
  | .ok none => unknown
  | .ok (some n) => number n

def apply (op : String) : Outcome → Outcome
  | number b => ofFold (.ok (unaryValue op b))
  | other => other

/-- The outcome of an operator between operands. -/
def join (op : String) : Outcome → Outcome → Outcome
  | number a, number b => ofFold (binaryValue op a b)
  | divisionByZero, _ => divisionByZero
  | _, divisionByZero => divisionByZero
  | _, _ => unknown

@[simp] theorem join_zero_left (op : String) (o : Outcome) :
    join op divisionByZero o = divisionByZero := by cases o <;> rfl

@[simp] theorem join_zero_right (op : String) (o : Outcome) :
    join op o divisionByZero = divisionByZero := by cases o <;> rfl

@[simp] theorem join_unknown_number (op : String) (b : Int64) :
    join op unknown (number b) = unknown := rfl

@[simp] theorem join_number_unknown (op : String) (a : Int64) :
    join op (number a) unknown = unknown := rfl

@[simp] theorem join_unknown_unknown (op : String) : join op unknown unknown = unknown := rfl

end Outcome

def number? : Expr → Option Int64
  | number n _ => some n
  | _ => none

/-- What a tree ends as if its symbols have these values. -/
def outcome (values : String → Option Int64) (e : Expr) : Outcome :=
  .ofFold ((e.simplify (Valuation.ofSymbols values).resolver).map number?)

theorem number_foldUnary (op : String) (e : Expr) (g : Bool) :
    (foldUnary op e g).number? = e.number?.bind (unaryValue op) := by
  rcases foldUnary_cases op e g with ⟨b, g', v, rfl, known, folded⟩ | ⟨unfolded, folded⟩
  · rw [folded, number?, number?, Option.bind_some, known]
  · rw [folded]
    cases e with
    | number b g' => exact (unfolded b g' rfl).symm
    | _ => rfl

theorem number_foldBinary (op : String) (l r : Expr) (g : Bool) :
    Outcome.ofFold ((foldBinary op l r g).map number?) =
      (Outcome.ofFold (.ok l.number?)).join op (Outcome.ofFold (.ok r.number?)) := by
  cases l <;> cases r <;> try rfl
  rename_i a ga b gb
  simp only [foldBinary, number?, Outcome.ofFold, Outcome.join]
  cases binaryValue op a b with
  | error fault => rfl
  | ok v => cases v <;> rfl

section

variable (values : String → Option Int64)

@[simp] theorem outcome_number (n : Int64) (g : Bool) :
    (number n g).outcome values = .number n := rfl

theorem outcome_literal {text : String} {n : Int64} (literal : Literal.number? text = some n)
    (g : Bool) : (leaf text g).outcome values = .number n := by
  simp only [outcome, simplify, askSymbol, literal]
  rfl

theorem outcome_unary (op : String) (e : Expr) (g : Bool) :
    (unary op e g).outcome values = (e.outcome values).apply op := by
  rw [outcome, outcome, simplify]
  cases e.simplify ((Valuation.ofSymbols values).resolver : Resolver Empty) with
  | error fault => rfl
  | ok operand =>
    change Outcome.ofFold (.ok (foldUnary op operand g).number?) =
      (Outcome.ofFold (.ok operand.number?)).apply op
    rw [number_foldUnary]
    cases operand.number? <;> rfl

theorem outcome_binary (op : String) (l r : Expr) (g : Bool) :
    (binary op l r g).outcome values = (l.outcome values).join op (r.outcome values) := by
  have unasked : askCall ((Valuation.ofSymbols values).resolver : Resolver Empty) op l r =
      .ok none := by
    unfold askCall
    cases callee? op l <;> rfl
  rw [outcome, outcome, outcome, simplify, unasked]
  cases l.simplify ((Valuation.ofSymbols values).resolver : Resolver Empty) with
  | error fault => exact (Outcome.join_zero_left op _).symm
  | ok left =>
    cases r.simplify ((Valuation.ofSymbols values).resolver : Resolver Empty) with
    | error fault => exact (Outcome.join_zero_right op _).symm
    | ok right => exact number_foldBinary op left right g

theorem outcome_simplify {e e' : Expr}
    (simplified : e.simplify (Resolver.silent : Resolver Empty) = .ok e') :
    e'.outcome values = e.outcome values := by
  induction e generalizing e' with
  | leaf text g =>
    rcases simplify_leaf simplified with ⟨n, literal, rfl⟩ | ⟨_, ⟨n, asked, _⟩ | ⟨_, rfl⟩⟩
    · rw [outcome_literal values literal, outcome_number]
    · cases asked
    · rfl
  | number n g =>
    cases simplified
    rfl
  | unary op e g ih =>
    obtain ⟨operand, inner, rfl⟩ := simplify_unary simplified
    rcases foldUnary_cases op operand g with ⟨b, g', v, rfl, known, folded⟩ | ⟨_, folded⟩
    · rw [folded, outcome_unary, ← ih inner, outcome_number, outcome_number, Outcome.apply, known]
      rfl
    · rw [folded, outcome_unary, outcome_unary, ih inner]
  | binary op l r g ihl ihr =>
    rcases simplify_binary simplified with ⟨_, _, _, asked, _⟩ | ⟨_, l', r', left, right, folded⟩
    · cases asked
    · rw [outcome_binary, ← ihl left, ← ihr right]
      rcases foldBinary_cases folded with ⟨a, ga, b, gb, v, rfl, rfl, known, rfl⟩ | ⟨_, rfl⟩
      · have same := number_foldBinary op (number a ga) (number b gb) g
        rwa [folded] at same
      · rw [outcome_binary]
  | absent =>
    cases simplified
    rfl

theorem outcome_reduce (e : Expr) : (reduce e).outcome values = e.outcome values := by
  unfold reduce
  cases simplified : e.simplify (Resolver.silent : Resolver Empty) with
  | ok e' => exact outcome_simplify values simplified
  | error fault => rfl

end

end Expr

end WordAsm
