import WordAsm.Proofs.Outcomes
import WordAsm.Proofs.Shapes

/-!
Rearrangement. A symbol that is brought to the top is the tree or an operand of its root, and the
tree ends as before whatever values its symbols have; through sums a symbol that occurs once always
comes up. Writing differences as sums is exact as well. Writing quotients as products is not, since
the reciprocal of a number is rounded to zero: it is exact for divisors that are a unit or larger
than the dividend, and for no others.
-/
namespace WordAsm.Expr

namespace Outcome

theorem truth_ne_zero (b : Bool) : (truth b != 0) = b := by cases b <;> rfl

theorem associative_fold {op : String} (associative : isAssociative op = true) :
    ∃ f : Int64 → Int64 → Int64, (∀ a b, join op (number a) (number b) = number (f a b)) ∧
      (∀ a b c, f (f a b) c = f a (f b c)) ∧
      (isCommutative op = true → ∀ a b, f a b = f b a) := by
  simp only [isAssociative, List.contains_cons, List.contains_nil, Bool.or_false,
    Bool.or_eq_true, beq_iff_eq] at associative
  rcases associative with rfl | rfl | rfl | rfl | rfl | rfl | rfl
  · exact ⟨(· + ·), fun _ _ => rfl, Int64.add_assoc, fun _ => Int64.add_comm⟩
  · exact ⟨(· * ·), fun _ _ => rfl, Int64.mul_assoc, fun _ => Int64.mul_comm⟩
  · exact ⟨(· &&& ·), fun _ _ => rfl, Int64.and_assoc, fun _ => Int64.and_comm⟩
  · exact ⟨(· ||| ·), fun _ _ => rfl, Int64.or_assoc, fun _ => Int64.or_comm⟩
  · exact ⟨(· ^^^ ·), fun _ _ => rfl, Int64.xor_assoc, fun _ => Int64.xor_comm⟩
  · refine ⟨fun a b => truth (a != 0 && b != 0), fun _ _ => rfl, ?_, ?_⟩
    · intro a b c
      simp only [truth_ne_zero, Bool.and_assoc]
    · intro _ a b
      simp only [Bool.and_comm]
  · refine ⟨fun a b => truth (a != 0 || b != 0), fun _ _ => rfl, ?_, ?_⟩
    · intro a b c
      simp only [truth_ne_zero, Bool.or_assoc]
    · intro _ a b
      simp only [Bool.or_comm]

theorem join_assoc {op : String} (associative : isAssociative op = true) (x y z : Outcome) :
    join op (join op x y) z = join op x (join op y z) := by
  obtain ⟨f, value, grouping, -⟩ := associative_fold associative
  cases x <;> cases y <;> cases z <;> simp [value, grouping]

theorem join_comm {op : String} (associative : isAssociative op = true)
    (commutative : isCommutative op = true) (x y : Outcome) : join op x y = join op y x := by
  obtain ⟨f, value, -, order⟩ := associative_fold associative
  cases x <;> cases y <;> simp [value]
  exact order commutative _ _

end Outcome

def HasOnTop (name : String) (e : Expr) : Prop :=
  e.isNamed name = true ∨
    ∃ op l r g, e = binary op l r g ∧ (l.isNamed name = true ∨ r.isNamed name = true)

variable {grammar : Grammar}

theorem hasOnTop_of_bring {name : String} {e top : Expr}
    (brought : bring grammar name e = some top) :
    top.HasOnTop name := by
  have named (op : String) (l r : Expr) (g : Bool) (same : top = binary op l r g) :
      top.HasOnTop name := by
    have symbol := itself_isNamed (same ▸ brought)
    refine .inr ⟨op, l, r, g, same, ?_⟩
    unfold itself at symbol
    split at symbol
    · exact .inl symbol
    · exact .inr symbol
  cases e with
  | leaf text g =>
    obtain ⟨rfl, symbol⟩ := bring_leaf brought
    exact .inl symbol
  | binary op l r g =>
    obtain ⟨_, _, _, _, _, ⟨_, same⟩ | ⟨_, _, _, _, same, _⟩⟩ := bring_binary brought
    · exact named _ _ _ _ same
    · exact named _ _ _ _ same
  | number n g => cases brought
  | unary op e g => cases brought
  | absent => cases brought

theorem join_itself {values : String → Option Int64} {name op : String}
    (associative : isAssociative op = true) (l r other : Expr)
    (order : l.isNamed name = true ∨ isCommutative op = true) :
    ((itself name l r).outcome values).join op
        (((beside name l r).outcome values).join op (other.outcome values)) =
      ((l.outcome values).join op (r.outcome values)).join op (other.outcome values) := by
  unfold itself beside
  split
  · rw [Outcome.join_assoc associative]
  · rename_i unnamed
    have commutative : isCommutative op = true := order.resolve_left unnamed
    rw [← Outcome.join_assoc associative,
      Outcome.join_comm associative commutative (r.outcome values)]

theorem outcome_bring {name : String} {e top : Expr} (brought : bring grammar name e = some top)
    (values : String → Option Int64) : top.outcome values = e.outcome values := by
  induction e generalizing top with
  | leaf text g => rw [(bring_leaf brought).1]
  | binary op l r g ihl ihr =>
    obtain ⟨child, other, side, inner, below,
      ⟨_, rfl⟩ | ⟨l', r', g', rfl, rfl, associative, order⟩⟩ := bring_binary brought
    · rfl
    · rw [outcome_binary, outcome_reduce, outcome_binary, outcome_binary values op l r,
        join_itself associative l' r' other (order.imp_left And.right),
        ← outcome_binary values op l' r' g']
      rcases side with ⟨rfl, rfl⟩ | ⟨absent, rfl, rfl⟩
      · rw [ihl below]
      · -- The symbol comes from the right, so the operator may swap its sides.
        have commutative : isCommutative op = true :=
          order.resolve_left fun kept => Bool.false_ne_true (absent.symm.trans kept.1)
        rw [ihr below, Outcome.join_comm associative commutative]
  | number n g => cases brought
  | unary op e g => cases brought
  | absent => cases brought

/-- A symbol of that name stands below sums only. -/
inductive InSums (name : String) : Expr → Prop
  | here {text : String} {g : Bool} (named : (leaf text g).isNamed name = true) :
      InSums name (leaf text g)
  | left {l r : Expr} {g : Bool} : InSums name l → InSums name (binary "+" l r g)
  | right {l r : Expr} {g : Bool} : InSums name r → InSums name (binary "+" l r g)

theorem count_binary (name op : String) (l r : Expr) (g : Bool) :
    (binary op l r g).count name = l.count name + r.count name := List.countP_append

theorem mentions_iff {name : String} {e : Expr} : e.mentions name = true ↔ 0 < e.count name :=
  decide_eq_true_iff

theorem mentions_of_inSums {name : String} {e : Expr} (inside : InSums name e) :
    e.mentions name = true := by
  induction inside with
  | here named => exact mentions_of_isNamed named
  | left _ ih => rw [mentions_binary, ih, Bool.true_or]
  | right _ ih => rw [mentions_binary, ih, Bool.or_true]

theorem comesUp_of_inSums {name : String} {e : Expr} (inside : InSums name e)
    (once : e.count name = 1) : e.ComesUp grammar name False := by
  induction inside with
  | here named => exact .inl named
  | left inside ih =>
    have mentioned := mentions_of_inSums inside
    have positive := mentions_iff.1 mentioned
    rw [count_binary] at once
    exact comesUp_left (ih (by omega)) mentioned False.elim
  | @right l r g inside ih =>
    have positive := mentions_iff.1 (mentions_of_inSums inside)
    rw [count_binary] at once
    have unmentioned : l.mentions name = false := by
      rw [← Bool.not_eq_true, mentions_iff]
      omega
    exact comesUp_right (ih (by omega)) unmentioned False.elim

theorem bring_of_comesUp {name : String} {e : Expr} (up : e.ComesUp grammar name False) :
    ∃ top, bring grammar name e = some top := by
  rcases up with named | ⟨l, r, g, brought, -⟩
  · exact ⟨e, (bring_of_isNamed grammar named).1⟩
  · exact ⟨_, brought⟩

/-- What is brought to the top has the symbol there and ends as the tree did, whatever values the
symbols have; and a symbol that occurs once, below sums only, is brought there. This is so with
every table of precedence, since operators that are equal are in one group of it. -/
theorem brought_up_alike (grammar : Grammar) (e : Expr) (name : String) :
    (∀ top, bringToTop grammar e name = some top →
      top.HasOnTop name ∧ ∀ values, top.outcome values = e.outcome values) ∧
    (e.count name = 1 → InSums name e → ∃ top, bringToTop grammar e name = some top) := by
  constructor
  · intro top brought
    unfold bringToTop at brought
    split at brought
    · exact ⟨hasOnTop_of_bring brought, outcome_bring brought⟩
    · cases brought
  · intro once inside
    obtain ⟨top, brought⟩ := bring_of_comesUp (comesUp_of_inSums inside once)
    exact ⟨top, by rw [bringToTop, once, beq_self_eq_true, if_pos rfl, brought]⟩

def nestedSum : Expr :=
  binary "+" (leaf "3" false)
    (binary "+" (leaf "label" false)
      (binary "+" (leaf "A" false) (binary "/" (leaf "1" false) (leaf "0" false) false) true)
      true) false

-- What stays beside the symbol cannot be folded, because it divides by zero.
theorem brought_up_alike_undivided :
    nestedSum.count "a" = 1 ∧ InSums "a" nestedSum ∧
    bringToTop .standard nestedSum "a" = some
      (binary "+" (leaf "A" false)
        (binary "+" (binary "+" (binary "/" (leaf "1" false) (leaf "0" false) false)
          (leaf "label" false) false) (leaf "3" false) false) false) ∧
    ∃ top, bringToTop .standard nestedSum "a" = some top ∧ top.HasOnTop "a" ∧
      ∀ values, top.outcome values = nestedSum.outcome values := by
  have once : nestedSum.count "a" = 1 := by decide +kernel
  have inside : InSums "a" nestedSum := .right (.right (.left (.here (by decide +kernel))))
  obtain ⟨sound, complete⟩ := brought_up_alike .standard nestedSum "a"
  obtain ⟨top, brought⟩ := complete once inside
  exact ⟨once, inside, by decide +kernel, top, brought, sound top brought⟩

namespace Outcome

theorem join_neg (x y : Outcome) : join "+" x (apply "-" y) = join "-" x y := by
  cases x <;> cases y <;> try rfl
  rename_i a b
  change number (a + -b) = number (a - b)
  rw [Int64.sub_eq_add_neg]

theorem join_settled_cases {op : String} {x y : Outcome} (settled : join op x y ≠ unknown) :
    x = divisionByZero ∨ y = divisionByZero ∨ ∃ a b, x = number a ∧ y = number b := by
  cases x with
  | divisionByZero => exact .inl rfl
  | number a =>
    cases y with
    | divisionByZero => exact .inr (.inl rfl)
    | number b => exact .inr (.inr ⟨a, b, rfl, rfl⟩)
    | unknown => exact absurd rfl settled
  | unknown =>
    cases y with
    | divisionByZero => exact .inr (.inl rfl)
    | number b => exact absurd rfl settled
    | unknown => exact absurd rfl settled

section

variable {op : String} {x y x' y' : Outcome}

theorem join_settled (left : x ≠ unknown → x' = x) (right : y ≠ unknown → y' = y)
    (settled : join op x y ≠ unknown) : join op x' y' = join op x y := by
  rcases join_settled_cases settled with rfl | rfl | ⟨a, b, rfl, rfl⟩
  · rw [left (by simp), join_zero_left, join_zero_left]
  · rw [right (by simp), join_zero_right, join_zero_right]
  · rw [left (by simp), right (by simp)]

theorem apply_settled (operand : x ≠ unknown → x' = x) (settled : apply op x ≠ unknown) :
    apply op x' = apply op x := by
  cases x with
  | unknown => exact absurd rfl settled
  | divisionByZero => rw [operand (by simp)]
  | number b => rw [operand (by simp)]

end

end Outcome

def DividesExactly (a b : Int64) : Prop :=
  b = 0 ∨ b = 1 ∨ b = -1 ∨ a.toInt.natAbs < b.toInt.natAbs

instance (a b : Int64) : Decidable (DividesExactly a b) :=
  inferInstanceAs (Decidable (b = 0 ∨ b = 1 ∨ b = -1 ∨ a.toInt.natAbs < b.toInt.natAbs))

theorem div_neg_one (a : Int64) : a / -1 = -a := by
  have unit : (-1 : Int64).toInt = -1 := rfl
  rw [← Int64.toInt_inj, Int64.toInt_div, unit, Int.tdiv_neg, Int.tdiv_one, Int64.toInt_neg]

theorem div_eq_zero_iff {a b : Int64} (nonzero : b ≠ 0) (other : b ≠ -1) :
    a / b = 0 ↔ a.toInt.natAbs < b.toInt.natAbs := by
  have positive : b.toInt.natAbs ≠ 0 := by
    intro zero
    exact nonzero (Int64.toInt_inj.1 (Int.natAbs_eq_zero.1 zero))
  rw [← Int64.toInt_inj, Int64.toInt_div_of_ne_right a b other, Int64.toInt_zero,
    ← Int.natAbs_eq_zero, Int.natAbs_tdiv]
  exact Nat.div_eq_zero_iff.trans (or_iff_right positive)

theorem one_lt_of_not_unit {b : Int64} (nonzero : b ≠ 0) (one : b ≠ 1) (minus : b ≠ -1) :
    (1 : Int64).toInt.natAbs < b.toInt.natAbs := by
  have noZero : b.toInt ≠ 0 := fun same => nonzero (Int64.toInt_inj.1 same)
  have noOne : b.toInt ≠ 1 := fun same => one (Int64.toInt_inj.1 same)
  have noMinus : b.toInt ≠ -1 := fun same => minus (Int64.toInt_inj.1 same)
  rw [Int64.toInt_one]
  omega

theorem mul_reciprocal_iff {a b : Int64} (nonzero : b ≠ 0) :
    a * (1 / b) = a / b ↔ DividesExactly a b := by
  unfold DividesExactly
  by_cases one : b = 1
  · subst one
    simp
  by_cases minus : b = -1
  · subst minus
    rw [div_neg_one, div_neg_one, Int64.neg_eq_neg_one_mul a, Int64.mul_comm]
    simp
  have reciprocal : (1 : Int64) / b = 0 :=
    (div_eq_zero_iff nonzero minus).2 (one_lt_of_not_unit nonzero one minus)
  rw [reciprocal, Int64.mul_zero, eq_comm, div_eq_zero_iff nonzero minus]
  simp [nonzero, one, minus]

namespace Outcome

theorem join_reciprocal_iff (a b : Int64) :
    join "*" (number a) (join "/" (number 1) (number b)) = join "/" (number a) (number b) ↔
      DividesExactly a b := by
  by_cases zero : b = 0
  · subst zero
    exact ⟨fun _ => .inl rfl, fun _ => rfl⟩
  · have quotient (c : Int64) : join "/" (number c) (number b) = number (c / b) := by
      simp only [join, binaryValue, beq_iff_eq, zero, if_false, ofFold]
    rw [quotient, quotient, ← mul_reciprocal_iff zero]
    exact ⟨fun same => by injection same, fun same => congrArg number same⟩

theorem reciprocal_settled {x y x' y' : Outcome} (left : x ≠ unknown → x' = x)
    (right : y ≠ unknown → y' = y)
    (exactly : ∀ a b, x = number a → y = number b → DividesExactly a b)
    (settled : join "/" x y ≠ unknown) :
    join "*" x' (join "/" (number 1) y') = join "/" x y := by
  rcases join_settled_cases settled with rfl | rfl | ⟨a, b, rfl, rfl⟩
  · rw [left (by simp), join_zero_left, join_zero_left]
  · rw [right (by simp), join_zero_right, join_zero_right, join_zero_right]
  · rw [left (by simp), right (by simp), join_reciprocal_iff]
    exact exactly a b rfl rfl

end Outcome

section

variable {values : String → Option Int64} {l r : Expr} {g : Bool}

theorem outcome_commutable_minus :
    (binary "-" l r g).commutable.outcome values =
      (l.commutable.outcome values).join "-" (r.commutable.outcome values) := by
  simp only [commutable, beq_self_eq_true, if_true, outcome_binary, outcome_reduce, outcome_unary,
    Outcome.join_neg]

theorem outcome_commutable_quotient :
    (binary "/" l r g).commutable.outcome values =
      (l.commutable.outcome values).join "*"
        ((Outcome.number 1).join "/" (r.commutable.outcome values)) := by
  have other : ("/" == "-") = false := by decide
  simp only [commutable, other, Bool.false_eq_true, beq_self_eq_true, if_true, if_false,
    outcome_binary, outcome_reduce, outcome_number]

theorem outcome_commutable_other {op : String} (minus : op ≠ "-") (quotient : op ≠ "/") :
    (binary op l r g).commutable.outcome values =
      (l.commutable.outcome values).join op (r.commutable.outcome values) := by
  simp only [commutable, beq_iff_eq, minus, quotient, if_false, outcome_binary]

end

/-- Every quotient of numbers in the tree is the product with the reciprocal. -/
def QuotientsExact (values : String → Option Int64) : Expr → Prop
  | unary _ e _ => e.QuotientsExact values
  | binary op l r _ =>
    l.QuotientsExact values ∧ r.QuotientsExact values ∧
      (op = "/" → ∀ a b, l.outcome values = .number a → r.outcome values = .number b →
        DividesExactly a b)
  | leaf .. | number .. | absent => True

theorem outcome_commutable {values : String → Option Int64} {e : Expr}
    (exactly : e.QuotientsExact values) (settled : e.outcome values ≠ .unknown) :
    e.commutable.outcome values = e.outcome values := by
  induction e with
  | leaf text g => rfl
  | number n g => rfl
  | absent => rfl
  | unary op e g ih =>
    rw [outcome_unary] at settled
    rw [commutable, outcome_unary, outcome_unary]
    exact Outcome.apply_settled (ih exactly) settled
  | binary op l r g ihl ihr =>
    obtain ⟨exactLeft, exactRight, exactHere⟩ := exactly
    rw [outcome_binary] at settled ⊢
    by_cases minus : op = "-"
    · subst minus
      rw [outcome_commutable_minus]
      exact Outcome.join_settled (ihl exactLeft) (ihr exactRight) settled
    by_cases quotient : op = "/"
    · subst quotient
      rw [outcome_commutable_quotient]
      exact Outcome.reciprocal_settled (ihl exactLeft) (ihr exactRight) (exactHere rfl) settled
    rw [outcome_commutable_other minus quotient]
    exact Outcome.join_settled (ihl exactLeft) (ihr exactRight) settled

/-- A tree of exact quotients keeps its number, or its division by zero, when it is written with
sums and products; and a quotient of such trees keeps its number only if it is exact itself. -/
theorem commutable_keeps_exact_quotients (values : String → Option Int64) :
    (∀ e : Expr, e.QuotientsExact values →
      (∀ v, e.outcome values = .number v → e.commutable.outcome values = .number v) ∧
      (e.outcome values = .divisionByZero → e.commutable.outcome values = .divisionByZero)) ∧
    (∀ (l r : Expr) (g : Bool) (a b : Int64), l.QuotientsExact values → r.QuotientsExact values →
      l.outcome values = .number a → r.outcome values = .number b →
      ((binary "/" l r g).commutable.outcome values = (binary "/" l r g).outcome values ↔
        DividesExactly a b)) := by
  constructor
  · intro e exactly
    constructor
    · intro v ends
      rw [outcome_commutable exactly (by simp [ends]), ends]
    · intro ends
      rw [outcome_commutable exactly (by simp [ends]), ends]
  · intro l r g a b exactLeft exactRight left right
    rw [outcome_commutable_quotient, outcome_binary, outcome_commutable exactLeft (by simp [left]),
      outcome_commutable exactRight (by simp [right]), left, right, Outcome.join_reciprocal_iff]

def leastQuotient : Expr :=
  binary "-" (leaf "x" false)
    (binary "/" (leaf "0x8000000000000000" false) (unary "-" (leaf "1" false) false) false) false

theorem commutable_keeps_exact_quotients_least :
    let five : String → Option Int64 := fun _ => some 5
    leastQuotient.QuotientsExact five ∧
    leastQuotient.outcome five = .number (5 - Int64.minValue) ∧
    leastQuotient.commutable.outcome five = .number (5 - Int64.minValue) ∧
    ((binary "/" (leaf "x" false) (leaf "2" false) false).commutable.outcome five ≠
      (binary "/" (leaf "x" false) (leaf "2" false) false).outcome five) := by
  intro five
  have divisor : (unary "-" (leaf "1" false) false).outcome five = .number (-1) := by
    decide +kernel
  have exactly : leastQuotient.QuotientsExact five := by
    refine ⟨trivial, ⟨trivial, trivial, ?_⟩, fun other => absurd other (by decide)⟩
    intro _ a b _ right
    rw [divisor] at right
    cases right
    exact .inr (.inr (.inl rfl))
  have ends : leastQuotient.outcome five = .number (5 - Int64.minValue) := by decide +kernel
  obtain ⟨kept, quotient⟩ := commutable_keeps_exact_quotients five
  refine ⟨exactly, ends, (kept leastQuotient exactly).1 _ ends, ?_⟩
  intro same
  have five_two : DividesExactly 5 2 :=
    (quotient (leaf "x" false) (leaf "2" false) false 5 2 trivial trivial (by decide +kernel)
      (by decide +kernel)).1 same
  exact absurd five_two (by decide)

-- `7 / 2`, which is 3, becomes 0; and `1 / (6 / 4 - 1)`, which divides by zero, becomes -1.
theorem quotients_are_rounded :
    let half := binary "/" (leaf "7" false) (leaf "2" false) false
    let reciprocal := binary "/" (leaf "1" false)
      (binary "-" (binary "/" (leaf "6" false) (leaf "4" false) false) (leaf "1" false) true) false
    (half.outcome (fun _ => none) = .number 3 ∧
      half.commutable.outcome (fun _ => none) = .number 0) ∧
    (reciprocal.outcome (fun _ => none) = .divisionByZero ∧
      reciprocal.commutable.outcome (fun _ => none) = .number (-1)) := by
  decide +kernel

end WordAsm.Expr
