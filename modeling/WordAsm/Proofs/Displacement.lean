import WordAsm.Proofs.Evaluation
import WordAsm.Statement.Operand

/-!
Displacements. The number that rearrangement finds beside a register is what the expression adds
to it: whatever the register holds, the value of the expression is that of the register plus the
number. Rearrangement rewrites quotients as products, which is not exact; but a tree that is
already simplified has quotients only around symbols that stay open, and no way up through one of
them ends in a sum.
-/
namespace WordAsm.Expr

/-- Nothing in the tree can be folded any further. -/
def Reduced (e : Expr) : Prop := e.simplify (Resolver.silent : Resolver Empty) = .ok e

abbrev FoldsTo (e : Expr) (n : Int64) : Prop := e.Yields (Resolver.silent : Resolver Empty) n

theorem foldsTo_number (n : Int64) (g : Bool) : (number n g).FoldsTo n := ⟨g, rfl⟩

theorem foldsTo_binary {op : String} {l r : Expr} {g : Bool} {n : Int64}
    (folded : (binary op l r g).FoldsTo n) :
    ∃ a b, l.FoldsTo a ∧ r.FoldsTo b ∧ combine op a b = some n := by
  apply yields_binary ?_ folded
  intro fn v called answered
  simp [Resolver.silent] at answered

theorem foldBinary_open {op : String} {l r : Expr} {g : Bool}
    (unfolded : ∀ a ga b gb, l = number a ga → r = number b gb →
      (binaryValue op a b : Except (EvalError ε) (Option Int64)) = .ok none) :
    (foldBinary op l r g : Except (EvalError ε) Expr) = .ok (binary op l r g) := by
  unfold foldBinary
  split
  · rename_i a ga b gb
    rw [unfolded a ga b gb rfl rfl]
  · rfl

theorem reduced_of_simplify {resolver : Resolver ε} {e e' : Expr}
    (simplified : e.simplify resolver = .ok e') : e'.Reduced := by
  induction e generalizing e' with
  | leaf text g =>
    rcases simplify_leaf simplified with ⟨n, _, rfl⟩ | ⟨literal, ⟨n, _, rfl⟩ | ⟨_, rfl⟩⟩
    · rfl
    · rfl
    · simp [Reduced, simplify, askSymbol, literal, Resolver.silent, answer, bind, Except.bind,
        pure, Except.pure]
  | number n g =>
    obtain rfl : number n g = e' := by simpa [simplify] using simplified
    rfl
  | unary op e g ih =>
    obtain ⟨operand, inner, rfl⟩ := simplify_unary simplified
    have reduced : operand.simplify (Resolver.silent : Resolver Empty) = .ok operand := ih inner
    rcases foldUnary_cases op operand g with ⟨_, _, v, _, _, folded⟩ | ⟨_, folded⟩
    · rw [folded]
      rfl
    · simp only [Reduced, folded, simplify, reduced, bind, Except.bind, pure, Except.pure]
  | binary op l r g ihl ihr =>
    rcases simplify_binary simplified with ⟨_, v, _, _, rfl⟩ | ⟨_, l', r', left, right, folded⟩
    · rfl
    · have reducedLeft : l'.simplify (Resolver.silent : Resolver Empty) = .ok l' := ihl left
      have reducedRight : r'.simplify (Resolver.silent : Resolver Empty) = .ok r' := ihr right
      rcases foldBinary_cases folded with ⟨_, _, _, _, v, _, _, _, rfl⟩ | ⟨unfolded, rfl⟩
      · rfl
      · have unasked : askCall (Resolver.silent : Resolver Empty) op l' r' = .ok none := by
          unfold askCall
          cases callee? op l' <;> rfl
        have kept : (foldBinary op l' r' g : Except (EvalError Empty) Expr) =
            .ok (binary op l' r' g) :=
          foldBinary_open fun a ga b gb left right => binaryValue_ok (unfolded a ga b gb left right)
        simp only [Reduced, simplify, unasked, reducedLeft, reducedRight, kept, bind, Except.bind]
  | absent =>
    obtain rfl : absent = e' := by simpa [simplify] using simplified
    rfl

theorem reduced_unary {op : String} {e : Expr} {g : Bool} (reduced : (unary op e g).Reduced) :
    e.Reduced ∧ ∀ b g', e = number b g' → unaryValue op b = none := by
  obtain ⟨operand, inner, same⟩ := simplify_unary reduced
  rcases foldUnary_cases op operand g with ⟨_, _, _, _, _, folded⟩ | ⟨unfolded, folded⟩
  · rw [folded] at same
    cases same
  · rw [folded] at same
    cases same
    exact ⟨inner, unfolded⟩

theorem reduced_binary {op : String} {l r : Expr} {g : Bool} (reduced : (binary op l r g).Reduced) :
    l.Reduced ∧ r.Reduced ∧ ∀ a ga b gb, l = number a ga → r = number b gb →
      (binaryValue op a b : Except (EvalError Empty) (Option Int64)) = .ok none := by
  rcases simplify_binary reduced with ⟨_, _, _, answered, _⟩ | ⟨_, l', r', left, right, folded⟩
  · simp [Resolver.silent] at answered
  · rcases foldBinary_cases folded with ⟨_, _, _, _, _, _, _, _, same⟩ | ⟨unfolded, same⟩
    · cases same
    · cases same
      exact ⟨left, right, unfolded⟩

theorem simplify_reduce (e : Expr) :
    (reduce e).simplify (Resolver.silent : Resolver Empty) =
      e.simplify (Resolver.silent : Resolver Empty) := by
  unfold reduce
  cases simplified : e.simplify (Resolver.silent : Resolver Empty) with
  | ok s => exact reduced_of_simplify simplified
  | error f => exact simplified

theorem foldsTo_reduce {e : Expr} {n : Int64} (folded : (reduce e).FoldsTo n) : e.FoldsTo n := by
  unfold FoldsTo Yields at folded
  rwa [simplify_reduce] at folded

theorem number_of_commutable {t : Expr} {n : Int64} (reduced : t.Reduced)
    (folded : t.commutable.FoldsTo n) : ∃ g, t = number n g := by
  -- A node that became a number had numbers below it before, and would have been folded then.
  induction t generalizing n with
  | leaf text g =>
    obtain ⟨g', simplified⟩ := folded
    have same : Except.ok (leaf text g) = Except.ok (number n g') := reduced.symm.trans simplified
    cases same
  | number m g =>
    obtain ⟨_, simplified⟩ := folded
    cases simplified
    exact ⟨_, rfl⟩
  | unary op e g ih =>
    obtain ⟨inner, unfolded⟩ := reduced_unary reduced
    obtain ⟨b, operand, known⟩ := yields_unary folded
    obtain ⟨gb, same⟩ := ih inner operand
    rw [unfolded b gb same] at known
    cases known
  | binary op l r g ihl ihr =>
    obtain ⟨reducedLeft, reducedRight, unfolded⟩ := reduced_binary reduced
    simp only [commutable] at folded
    split at folded
    · rename_i minus
      obtain ⟨a, _, left, right, _⟩ := foldsTo_binary folded
      obtain ⟨b, operand, _⟩ := yields_unary (foldsTo_reduce right)
      obtain ⟨ga, sameLeft⟩ := ihl reducedLeft left
      obtain ⟨gb, sameRight⟩ := ihr reducedRight operand
      have stuck := unfolded a ga b gb sameLeft sameRight
      rw [eq_of_beq minus] at stuck
      simp [binaryValue] at stuck
    · split at folded
      · rename_i quotient
        obtain ⟨a, _, left, right, _⟩ := foldsTo_binary folded
        obtain ⟨_, b, _, operand, _⟩ := foldsTo_binary (foldsTo_reduce right)
        obtain ⟨ga, sameLeft⟩ := ihl reducedLeft left
        obtain ⟨gb, sameRight⟩ := ihr reducedRight operand
        have stuck := unfolded a ga b gb sameLeft sameRight
        -- Even a quotient by zero, which is an error, does not stay in a reduced tree.
        rw [eq_of_beq quotient] at stuck
        simp only [binaryValue] at stuck
        split at stuck <;> simp at stuck
      · obtain ⟨a, b, left, right, known⟩ := foldsTo_binary folded
        obtain ⟨ga, sameLeft⟩ := ihl reducedLeft left
        obtain ⟨gb, sameRight⟩ := ihr reducedRight right
        have stuck := combine_of_ok (unfolded a ga b gb sameLeft sameRight)
        rw [stuck] at known
        cases known
  | absent =>
    obtain ⟨_, simplified⟩ := folded
    cases simplified

/-- The tree is the symbol of that name. -/
def isNamed (name : String) (e : Expr) : Bool := e.symbol?.any fun s => Text.alike s name

theorem isNamed_eq (name : String) (e : Expr) : (e.isLeaf && e.mentions name) = e.isNamed name := by
  cases e with
  | leaf text g =>
    cases literal : Literal.number? text with
    | some n => simp [isLeaf, mentions, count, symbols, isNamed, symbol?, literal]
    | none =>
      by_cases same : Text.alike text name = true <;>
        simp [isLeaf, mentions, count, symbols, isNamed, symbol?, literal, same]
  | number n g => rfl
  | _ => simp [isLeaf, isNamed, symbol?]

theorem mentions_of_isNamed {name : String} {e : Expr} (named : e.isNamed name = true) :
    e.mentions name = true := by
  rw [← isNamed_eq, Bool.and_eq_true] at named
  exact named.2

/-- Of two operands the symbol, and the one beside it. -/
def itself (name : String) (l r : Expr) : Expr := if l.isNamed name then l else r
def beside (name : String) (l r : Expr) : Expr := if l.isNamed name then r else l

variable {grammar : Grammar}

theorem bring_leaf {name text : String} {g : Bool} {top : Expr}
    (brought : bring grammar name (leaf text g) = some top) :
    top = leaf text g ∧ (leaf text g).isNamed name = true := by
  simp only [bring] at brought
  split at brought
  · rename_i s symbol
    split at brought
    · rename_i same
      cases brought
      exact ⟨rfl, by simp [isNamed, symbol, same]⟩
    · cases brought
  · cases brought

theorem rotate_eq {op name : String} {g onLeft : Bool} {top other e : Expr}
    (rotated : rotate grammar op g name onLeft top other = some e) :
    ∃ l r g', top = binary op l r g' ∧
      e = binary op (itself name l r) (reduce (binary op (beside name l r) other false)) g ∧
      isAssociative op = true ∧
      ((onLeft = true ∧ l.isNamed name = true) ∨ isCommutative op = true) := by
  unfold rotate at rotated
  split at rotated
  · rename_i topOp l r g'
    simp only [isNamed_eq] at rotated
    split at rotated
    · cases rotated
    split at rotated
    · cases rotated
    · rename_i allowed order
      simp only [Bool.or_eq_true, Bool.not_eq_true', bne_iff_ne, not_or, Decidable.not_not,
        Bool.not_eq_false] at allowed
      simp only [Bool.and_eq_true, Bool.not_eq_true', not_and, Bool.not_eq_false,
        Bool.and_eq_false_imp] at order
      obtain ⟨⟨_, same⟩, associative⟩ := allowed
      refine ⟨l, r, g', by rw [same], ?_, associative, ?_⟩
      · unfold itself beside
        split at rotated <;> cases rotated <;> rename_i named <;> simp [named]
      · by_cases kept : onLeft = true ∧ l.isNamed name = true
        · exact .inl kept
        · exact .inr (order (by simpa using kept))
  · cases rotated

theorem bring_binary {name op : String} {l r top : Expr} {g : Bool}
    (brought : bring grammar name (binary op l r g) = some top) :
    ∃ child other, ((child = l ∧ other = r) ∨ (l.mentions name = false ∧ child = r ∧ other = l)) ∧
      ∃ inner, bring grammar name child = some inner ∧
        ((inner.isLeaf = true ∧ top = binary op l r g) ∨
          ∃ l' r' g', inner = binary op l' r' g' ∧
            top = binary op (itself name l' r')
              (reduce (binary op (beside name l' r') other false)) g ∧
            isAssociative op = true ∧
            ((l.mentions name = true ∧ l'.isNamed name = true) ∨ isCommutative op = true)) := by
  simp only [bring] at brought
  split at brought
  · cases brought
  · split at brought
    · rename_i present
      split at brought
      · cases brought
      · rename_i inner below
        refine ⟨l, r, .inl ⟨rfl, rfl⟩, inner, below, ?_⟩
        split at brought
        · rename_i leaf
          cases brought
          exact .inl ⟨leaf, rfl⟩
        · obtain ⟨l', r', g', shape, same, associative, order⟩ := rotate_eq brought
          exact .inr ⟨l', r', g', shape, same, associative,
            order.imp_left fun kept => ⟨present, kept.2⟩⟩
    · rename_i absent
      split at brought
      · cases brought
      · rename_i inner below
        refine ⟨r, l, .inr ⟨by simpa using absent, rfl, rfl⟩, inner, below, ?_⟩
        split at brought
        · rename_i leaf
          cases brought
          exact .inl ⟨leaf, rfl⟩
        · obtain ⟨l', r', g', shape, same, associative, order⟩ := rotate_eq brought
          exact .inr ⟨l', r', g', shape, same, associative,
            order.imp_left fun kept => absurd kept.1 Bool.false_ne_true⟩

theorem op_of_bring {name op op' : String} {l r l' r' : Expr} {g g' : Bool}
    (brought : bring grammar name (binary op l r g) = some (binary op' l' r' g')) : op' = op := by
  obtain ⟨_, _, _, _, _, ⟨_, same⟩ | ⟨_, _, _, _, same, _⟩⟩ := bring_binary brought
  · cases same
    rfl
  · cases same
    rfl

theorem isNamed_of_bring {name : String} {e top : Expr} (brought : bring grammar name e = some top)
    (leaf : top.isLeaf = true) : e.isNamed name = true := by
  cases e with
  | leaf text g => exact (bring_leaf brought).2
  | binary op l r g =>
    obtain ⟨_, _, _, _, _, ⟨_, rfl⟩ | ⟨_, _, _, _, rfl, _⟩⟩ := bring_binary brought <;> cases leaf
  | number n g => cases brought
  | unary op e g => cases brought
  | absent => cases brought

theorem itself_isNamed {name op : String} {e l r : Expr} {g : Bool}
    (brought : bring grammar name e = some (binary op l r g)) :
    (itself name l r).isNamed name = true := by
  induction e generalizing op l r g with
  | leaf text g' => cases (bring_leaf brought).1
  | binary op' l' r' g' ihl ihr =>
    obtain ⟨child, other, side, inner, below, ⟨leaf, same⟩ | ⟨l'', r'', g'', rfl, same, _⟩⟩ :=
      bring_binary brought
    · have named := isNamed_of_bring below leaf
      cases same
      unfold itself
      rcases side with ⟨rfl, rfl⟩ | ⟨absent, rfl, rfl⟩
      · rw [if_pos named, named]
      · split
        · rename_i left; exact left
        · exact named
    · have named : (itself name l'' r'').isNamed name = true := by
        rcases side with ⟨rfl, _⟩ | ⟨_, rfl, _⟩
        · exact ihl below
        · exact ihr below
      cases same
      rwa [itself, if_pos named]
  | number n g' => cases brought
  | unary op' e g' => cases brought
  | absent => cases brought

def Carries (grammar : Grammar) (name : String) (e : Expr) (n : Int64) : Prop :=
  (e.isNamed name = true ∧ n = 0) ∨
    ∃ l r g, bring grammar name e = some (binary "+" l r g) ∧ (beside name l r).FoldsTo n

theorem carries_sum {name : String} {l r l' r' : Expr} {g g' : Bool} {n : Int64}
    (brought : bring grammar name (binary "+" l r g) = some (binary "+" l' r' g'))
    (folded : (beside name l' r').FoldsTo n) :
    ∃ p q, n = p + q ∧ ((Carries grammar name l p ∧ r.FoldsTo q) ∨
        (Carries grammar name r p ∧ l.FoldsTo q)) := by
  obtain ⟨child, other, side, inner, below, ⟨leaf, same⟩ | ⟨l'', r'', g'', rfl, same, _⟩⟩ :=
    bring_binary brought
  · have named := isNamed_of_bring below leaf
    cases same
    refine ⟨0, n, by simp, ?_⟩
    rcases side with ⟨rfl, rfl⟩ | ⟨absent, rfl, rfl⟩
    · rw [beside, if_pos named] at folded
      exact .inl ⟨.inl ⟨named, rfl⟩, folded⟩
    · have unnamed : ¬ other.isNamed name = true := by
        intro left
        rw [mentions_of_isNamed left] at absent
        cases absent
      rw [beside, if_neg unnamed] at folded
      exact .inr ⟨.inl ⟨named, rfl⟩, folded⟩
  · have named := itself_isNamed below
    cases same
    rw [beside, if_pos named] at folded
    obtain ⟨p, q, near, far, known⟩ := foldsTo_binary (foldsTo_reduce folded)
    have sum : n = p + q := by simpa [combine, binaryValue, eq_comm] using known
    refine ⟨p, q, sum, ?_⟩
    rcases side with ⟨rfl, rfl⟩ | ⟨_, rfl, rfl⟩
    · exact .inl ⟨.inr ⟨l'', r'', g'', below, near⟩, far⟩
    · exact .inr ⟨.inr ⟨l'', r'', g'', below, near⟩, far⟩

theorem isNamed_of_commutable {name : String} {t : Expr}
    (named : t.commutable.isNamed name = true) : t.isNamed name = true := by
  cases t with
  | binary op l r g =>
    simp only [commutable] at named
    split at named
    · cases named
    · split at named <;> cases named
  | unary op e g => cases named
  | _ => exact named

theorem reduce_unary (op : String) (e : Expr) (g : Bool) :
    (∃ v, reduce (unary op e g) = number v g) ∨
      ∃ operand, reduce (unary op e g) = unary op operand g := by
  unfold reduce
  cases simplified : (unary op e g).simplify (Resolver.silent : Resolver Empty) with
  | error f => exact .inr ⟨e, rfl⟩
  | ok s =>
    obtain ⟨operand, _, rfl⟩ := simplify_unary simplified
    rcases foldUnary_cases op operand g with ⟨_, _, v, _, _, folded⟩ | ⟨_, folded⟩
    · exact .inl ⟨v, folded⟩
    · exact .inr ⟨operand, folded⟩

theorem bring_reduce_unary (name op : String) (e : Expr) (g : Bool) :
    bring grammar name (reduce (unary op e g)) = none := by
  rcases reduce_unary op e g with ⟨v, same⟩ | ⟨operand, same⟩ <;> rw [same] <;> rfl

theorem not_carries_reduce_unary {name op : String} {e : Expr} {g : Bool} {n : Int64} :
    ¬ Carries grammar name (reduce (unary op e g)) n := by
  rintro (⟨named, _⟩ | ⟨l, r, g', brought, _⟩)
  · rcases reduce_unary op e g with ⟨v, same⟩ | ⟨operand, same⟩ <;> rw [same] at named <;>
      cases named
  · rw [bring_reduce_unary] at brought
    cases brought

theorem value_of_carries {ρ : Valuation} {name : String} {x : Int64}
    (named : ∀ e : Expr, e.isNamed name = true → e.value ρ = some x) {t : Expr} {n : Int64}
    (reduced : t.Reduced) (carried : Carries grammar name t.commutable n) :
    t.value ρ = some (x + n) := by
  -- Down the way that the symbol came up, every node is a sum or a difference, and the operand
  -- off the way is a number, by which the numbers beside the symbol above and below differ.
  induction t generalizing n with
  | leaf text g =>
    rcases carried with ⟨isNamed, rfl⟩ | ⟨l, r, g', brought, _⟩
    · rw [named (leaf text g) isNamed, Int64.add_zero]
    · cases (bring_leaf brought).1
  | number m g => rcases carried with ⟨isNamed, _⟩ | ⟨l, r, g', brought, _⟩ <;> contradiction
  | unary op e g ih => rcases carried with ⟨isNamed, _⟩ | ⟨l, r, g', brought, _⟩ <;> contradiction
  | absent => rcases carried with ⟨isNamed, _⟩ | ⟨l, r, g', brought, _⟩ <;> contradiction
  | binary op l r g ihl ihr =>
    obtain ⟨reducedLeft, reducedRight, _⟩ := reduced_binary reduced
    rcases carried with ⟨isNamed, _⟩ | ⟨l', r', g', brought, folded⟩
    · exact absurd (isNamed_of_commutable isNamed) (by simp [Expr.isNamed, symbol?])
    · simp only [commutable] at brought
      split at brought
      · rename_i minus
        obtain ⟨p, q, rfl, ⟨below, right⟩ | ⟨below, _⟩⟩ := carries_sum brought folded
        · obtain ⟨b, operand, negated⟩ := yields_unary (foldsTo_reduce right)
          obtain ⟨gb, rfl⟩ := number_of_commutable reducedRight operand
          obtain rfl : -b = q := by simpa [unaryValue] using negated
          have left := ihl reducedLeft below
          rw [eq_of_beq minus, value_sub left rfl, Int64.sub_eq_add_neg, Int64.add_assoc]
        · exact absurd below not_carries_reduce_unary
      · split at brought
        · -- A quotient is now a product, and what comes up through it is one too.
          exact absurd (op_of_bring brought) (by decide)
        · obtain rfl : "+" = op := op_of_bring brought
          obtain ⟨p, q, rfl, ⟨below, far⟩ | ⟨below, far⟩⟩ := carries_sum brought folded
          · obtain ⟨gq, rfl⟩ := number_of_commutable reducedRight far
            have left := ihl reducedLeft below
            rw [value_add left rfl, Int64.add_assoc]
          · obtain ⟨gq, rfl⟩ := number_of_commutable reducedLeft far
            have right := ihr reducedRight below
            rw [value_add rfl right, Int64.add_comm, Int64.add_assoc]

end WordAsm.Expr
