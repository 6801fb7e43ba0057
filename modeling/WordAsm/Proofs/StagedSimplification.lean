import WordAsm.Proofs.EmissionFaults

/-!
Simplification in stages. Constants are put into a tree when its line is read, and labels in every
pass of the layout. Main statement: putting in some values first and others later gives the tree
that all values give at once, or a division by zero both times.
-/
namespace WordAsm

namespace Valuation

def or (first second : Valuation) : Valuation where
  symbol s := (first.symbol s).or (second.symbol s)
  call fn e := (first.call fn e).or (second.call fn e)

def resolver (ρ : Valuation) : Resolver ε where
  symbol s := .ok (ρ.symbol s)
  call fn e := .ok (ρ.call fn e)

end Valuation

theorem bind_swap {x : Except ε α} {y : Except ε β} {f : α → β → Except ε γ}
    (alike : ∀ e e', x = .error e → y = .error e' → e = e') :
    (do let a ← x; let b ← y; f a b) = (do let b ← y; let a ← x; f a b) := by
  cases x with
  | ok a => cases y <;> rfl
  | error e =>
    cases y with
    | ok b => rfl
    | error e' =>
      have same := alike e e' rfl rfl
      subst same
      rfl

namespace Expr

/-- No part of the tree calls a function. -/
def isCallFree : Expr → Bool
  | unary _ e _ => e.isCallFree
  | binary op l r _ => op != callOp && l.isCallFree && r.isCallFree
  | leaf .. | number .. | absent => true

theorem error_of_valuation {ρ : Valuation} {e : Expr} {fault : EvalError ε}
    (failed : e.simplify ρ.resolver = .error fault) : fault = .divisionByZero := by
  rcases simplify_error failed with division | ⟨reason, -, ⟨s, refused⟩ | ⟨fn, a, refused⟩⟩
  · exact division
  · cases refused
  · cases refused

theorem simplify_operands {resolver : Resolver ε} {op : String} (other : op ≠ callOp)
    (l r : Expr) (g : Bool) :
    (binary op l r g).simplify resolver = (do
      let left ← l.simplify resolver
      let right ← r.simplify resolver
      foldBinary op left right g) := by
  have uncalled : callee? op l = none := by
    rw [callee?, if_neg]
    simpa using other
  rw [simplify, askCall, uncalled]
  rfl

theorem simplify_foldUnary (resolver : Resolver ε) (op : String) (e : Expr) (g : Bool) :
    (foldUnary op e g).simplify resolver =
      (do return foldUnary op (← e.simplify resolver) g) := by
  rcases foldUnary_cases op e g with ⟨b, g', v, rfl, known, folded⟩ | ⟨_, kept⟩
  · rw [folded]
    change Except.ok (number v g) = Except.ok (foldUnary op (number b g') g)
    rw [folded]
  · rw [kept, simplify]

theorem simplify_foldBinary {resolver : Resolver ε} {op : String} (other : op ≠ callOp)
    (l r : Expr) (g : Bool) :
    (foldBinary op l r g >>= simplify resolver) = (do
      let left ← l.simplify resolver
      let right ← r.simplify resolver
      foldBinary op left right g) := by
  cases folded : (foldBinary op l r g : Except (EvalError ε) Expr) with
  | error fault =>
    -- Only two numbers can fail, and numbers stay what they are.
    have numbers : ∃ a ga b gb, l = number a ga ∧ r = number b gb := by
      unfold foldBinary at folded
      split at folded
      · exact ⟨_, _, _, _, rfl, rfl⟩
      · cases folded
    obtain ⟨a, ga, b, gb, rfl, rfl⟩ := numbers
    exact folded.symm
  | ok e =>
    rcases foldBinary_cases folded with ⟨a, ga, b, gb, v, rfl, rfl, -, rfl⟩ | ⟨-, rfl⟩
    · exact folded.symm
    · exact simplify_operands other l r g

theorem simplify_simplify (first second : Valuation) {e : Expr} (callFree : e.isCallFree = true) :
    (e.simplify first.resolver >>= simplify second.resolver : Except (EvalError ε) Expr) =
      e.simplify (first.or second).resolver := by
  induction e with
  | leaf text g =>
    simp only [simplify, askSymbol, Valuation.resolver, Valuation.or, answer]
    cases literal : Literal.number? text with
    | some n => rfl
    | none =>
      cases first.symbol text with
      | some n => rfl
      | none =>
        change simplify _ (leaf text g) = _
        simp only [simplify, askSymbol, literal, answer, Option.none_or]
  | number n g => rfl
  | unary op e g ih =>
    calc ((unary op e g).simplify first.resolver >>= simplify second.resolver)
        = (do
            let inner ← e.simplify first.resolver
            (foldUnary op inner g).simplify second.resolver) := by
          rw [simplify, bind_assoc]
          rfl
      _ = (do
            let operand ← e.simplify first.resolver >>= simplify second.resolver
            return foldUnary op operand g) := by
          simp only [simplify_foldUnary, bind_assoc]
      _ = (unary op e g).simplify (first.or second).resolver := by
          rw [ih callFree, simplify]
  | binary op l r g ihl ihr =>
    simp only [isCallFree, Bool.and_eq_true, bne_iff_ne] at callFree
    obtain ⟨⟨other, left⟩, right⟩ := callFree
    calc ((binary op l r g).simplify first.resolver >>= simplify second.resolver)
        = (do
            let l' ← l.simplify first.resolver
            let r' ← r.simplify first.resolver
            let l'' ← l'.simplify second.resolver
            let r'' ← r'.simplify second.resolver
            foldBinary op l'' r'' g) := by
          simp only [simplify_operands other, bind_assoc, simplify_foldBinary other]
      _ = (do
            let l' ← l.simplify first.resolver
            let l'' ← l'.simplify second.resolver
            let r' ← r.simplify first.resolver
            let r'' ← r'.simplify second.resolver
            foldBinary op l'' r'' g) := by
          -- The left operand is now finished before the right one is begun.
          congr 1
          funext l'
          refine bind_swap ?_
          intro e e' failed failed'
          rw [error_of_valuation failed, error_of_valuation failed']
      _ = (do
            let l'' ← l.simplify first.resolver >>= simplify second.resolver
            let r'' ← r.simplify first.resolver >>= simplify second.resolver
            foldBinary op l'' r'' g) := by
          simp only [bind_assoc]
      _ = (binary op l r g).simplify (first.or second).resolver := by
          rw [ihl left, ihr right, simplify_operands other]
  | absent => rfl

/-- Simplification in two stages and at once: the same tree, or a division by zero both times. -/
theorem stages_agree (first second : Valuation) (e : Expr) (callFree : e.isCallFree = true) :
    let staged : Except (EvalError ε) Expr :=
      e.simplify first.resolver >>= simplify second.resolver
    let once : Except (EvalError ε) Expr := e.simplify (first.or second).resolver
    (staged = .error .divisionByZero ∧ once = .error .divisionByZero) ∨
      ∃ result, staged = .ok result ∧ once = .ok result := by
  intro staged once
  have same : staged = once := simplify_simplify first second callFree
  cases result : once with
  | error fault =>
    have division : fault = .divisionByZero := error_of_valuation result
    subst division
    exact .inl ⟨same.trans result, rfl⟩
  | ok e' => exact .inr ⟨e', same.trans result, rfl⟩

def quotient : Expr :=
  binary "/" (binary "+" (leaf "x" false) (leaf "2" false) true)
    (binary "-" (leaf "y" false) (leaf "3" false) true) false

def only (name : String) (n : Int64) : Valuation where
  symbol s := if s = name then some n else none
  call _ _ := none

-- The divisor is open in the first stage, and zero in the second.
theorem stages_agree_late_zero :
    quotient.isCallFree = true ∧
    quotient.simplify ((only "x" 10).resolver : Resolver Empty) = .ok
      (binary "/" (number 12 true) (binary "-" (leaf "y" false) (number 3 false) true) false) ∧
    quotient.simplify (((only "x" 10).or (only "y" 3)).resolver : Resolver Empty) =
      .error .divisionByZero := by
  have callFree : quotient.isCallFree = true := by decide
  refine ⟨callFree, ok_of_toOption (by decide +kernel), ?_⟩
  rcases stages_agree (ε := Empty) (only "x" 10) (only "y" 3) quotient callFree with
    ⟨-, once⟩ | ⟨result, staged, -⟩
  · exact once
  · have none : (quotient.simplify ((only "x" 10).resolver : Resolver Empty) >>=
        simplify (only "y" 3).resolver).toOption = none := by decide +kernel
    rw [staged] at none
    cases none

end Expr

end WordAsm
