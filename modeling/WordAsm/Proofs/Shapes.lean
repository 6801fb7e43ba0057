import WordAsm.Proofs.Displacement

/-!
Shapes of expressions. Two simplified trees are similar if they differ in their numbers only.
Where the same symbols have values, whatever these are, a tree is simplified to similar trees,
unless one of the values makes it divide by zero; and similar trees have displacements alike.
-/
namespace WordAsm

namespace Expr

inductive Similar : Expr → Expr → Prop
  | leaf (text : String) (g : Bool) : Similar (.leaf text g) (.leaf text g)
  | number (n n' : Int64) (g : Bool) : Similar (.number n g) (.number n' g)
  | unary (op : String) (g : Bool) {e e' : Expr} :
      Similar e e' → Similar (.unary op e g) (.unary op e' g)
  | binary (op : String) (g : Bool) {l l' r r' : Expr} :
      Similar l l' → Similar r r' → Similar (.binary op l r g) (.binary op l' r' g)
  | absent : Similar .absent .absent

namespace Similar

variable {e e' : Expr}

theorem symbols_eq (similar : Similar e e') : e'.symbols = e.symbols := by
  induction similar with
  | leaf => rfl
  | number => rfl
  | unary op g _ ih => exact ih
  | binary op g _ _ ihl ihr => rw [symbols, symbols, ihl, ihr]
  | absent => rfl

theorem symbol_eq (similar : Similar e e') : e'.symbol? = e.symbol? := by
  cases similar <;> rfl

theorem isGrouped_eq (similar : Similar e e') : e'.isGrouped = e.isGrouped := by
  cases similar <;> rfl

theorem isNumber_eq (similar : Similar e e') : e'.isNumber = e.isNumber := by
  cases similar <;> rfl

end Similar

theorem unaryValue_similar (op : String) (b b' : Int64) :
    (unaryValue op b').isSome = (unaryValue op b).isSome := by
  unfold unaryValue
  split <;> rfl

theorem foldUnary_similar {e e' : Expr} (op : String) (g : Bool) (similar : Similar e e') :
    Similar (foldUnary op e g) (foldUnary op e' g) := by
  cases similar with
  | number n n' g' =>
    have both := unaryValue_similar op n n'
    simp only [foldUnary]
    cases value : unaryValue op n with
    | some v =>
      rw [value] at both
      obtain ⟨v', value'⟩ := Option.isSome_iff_exists.1 both
      rw [value']
      exact .number _ _ _
    | none =>
      rw [value, Option.isSome_none, Option.isSome_eq_false_iff, Option.isNone_iff_eq_none] at both
      rw [both]
      exact .unary _ _ (.number _ _ _)
  | leaf text g' => exact .unary _ _ (.leaf _ _)
  | unary op' g' inner => exact .unary _ _ (.unary _ _ inner)
  | binary op' g' left right => exact .unary _ _ (.binary _ _ left right)
  | absent => exact .unary _ _ .absent

theorem binaryValue_similar {op : String} {a b : Int64} {v : Option Int64} (a' b' : Int64)
    (folded : (binaryValue op a b : Except (EvalError ε) (Option Int64)) = .ok v) :
    (∃ v', (binaryValue op a' b' : Except (EvalError ε) (Option Int64)) = .ok v' ∧
      v'.isSome = v.isSome) ∨
    (binaryValue op a' b' : Except (EvalError ε) (Option Int64)) = .error .divisionByZero := by
  by_cases zero : b' = 0 <;>
  · unfold binaryValue at folded ⊢
    split at folded <;> (try split at folded) <;> cases folded <;> simp [*]

theorem foldBinary_similar {op : String} {l l' r r' e : Expr} {g : Bool}
    (folded : (foldBinary op l r g : Except (EvalError ε) Expr) = .ok e)
    (left : Similar l l') (right : Similar r r') :
    (∃ e', (foldBinary op l' r' g : Except (EvalError ε) Expr) = .ok e' ∧ Similar e e') ∨
    (foldBinary op l' r' g : Except (EvalError ε) Expr) = .error .divisionByZero := by
  have kept : Similar (.binary op l r g) (.binary op l' r' g) := .binary op g left right
  by_cases numbers : ∃ a ga b gb, l = .number a ga ∧ r = .number b gb
  · obtain ⟨a, ga, b, gb, rfl, rfl⟩ := numbers
    cases left with
    | number _ a' =>
      cases right with
      | number _ b' =>
        simp only [foldBinary] at folded ⊢
        cases value : (binaryValue op a b : Except (EvalError ε) (Option Int64)) with
        | error f =>
          rw [value] at folded
          cases folded
        | ok v =>
          rw [value] at folded
          rcases binaryValue_similar a' b' value with ⟨v', value', both⟩ | zero
          · rw [value']
            cases v with
            | some v =>
              obtain ⟨w, rfl⟩ := Option.isSome_iff_exists.1 both
              cases folded
              exact .inl ⟨_, rfl, .number _ _ _⟩
            | none =>
              rw [Option.isSome_none, Option.isSome_eq_false_iff,
                Option.isNone_iff_eq_none] at both
              subst both
              cases folded
              exact .inl ⟨_, rfl, kept⟩
          · rw [zero]
            exact .inr rfl
  · -- Without two numbers the node stays as it is, on both sides.
    have stays : (foldBinary op l r g : Except (EvalError ε) Expr) = .ok (.binary op l r g) :=
      foldBinary_open fun a ga b gb first second => absurd ⟨a, ga, b, gb, first, second⟩ numbers
    have stays' : (foldBinary op l' r' g : Except (EvalError ε) Expr) =
        .ok (.binary op l' r' g) := by
      refine foldBinary_open ?_
      rintro a ga b gb rfl rfl
      cases left
      cases right
      exact absurd ⟨_, _, _, _, rfl, rfl⟩ numbers
    rw [stays] at folded
    cases folded
    exact .inl ⟨_, stays', kept⟩

end Expr

/-- The second resolver has values where the first one has them, and answers calls alike. -/
structure Resolver.Matches (resolver resolver' : Resolver ε) : Prop where
  call : resolver'.call = resolver.call
  symbol : ∀ {s v}, resolver.symbol s = .ok v →
    ∃ v', resolver'.symbol s = .ok v' ∧ v'.isSome = v.isSome

namespace Expr

theorem simplify_similar {resolver resolver' : Resolver ε}
    (same : resolver.Matches resolver') {e x : Expr} (simplified : e.simplify resolver = .ok x) :
    (∃ x', e.simplify resolver' = .ok x' ∧ Similar x x') ∨
      e.simplify resolver' = .error .divisionByZero := by
  induction e generalizing x with
  | leaf text g =>
    left
    rcases simplify_leaf simplified with ⟨n, literal, rfl⟩ | ⟨literal, asked⟩
    · exact ⟨.number n g, by simp only [simplify, askSymbol, literal], .number _ _ _⟩
    · rcases asked with ⟨n, asked, rfl⟩ | ⟨asked, rfl⟩
      · obtain ⟨v', asked', both⟩ := same.symbol asked
        obtain ⟨n', rfl⟩ := Option.isSome_iff_exists.1 both
        refine ⟨.number n' g, ?_, .number _ _ _⟩
        simp only [simplify, askSymbol, literal, asked', answer]
        rfl
      · obtain ⟨v', asked', both⟩ := same.symbol asked
        rw [Option.isSome_none, Option.isSome_eq_false_iff, Option.isNone_iff_eq_none] at both
        subst both
        refine ⟨.leaf text g, ?_, .leaf _ _⟩
        simp only [simplify, askSymbol, literal, asked', answer]
        rfl
  | number n g =>
    cases simplified
    exact .inl ⟨_, rfl, .number _ _ _⟩
  | unary op e g ih =>
    obtain ⟨operand, inner, rfl⟩ := simplify_unary simplified
    rcases ih inner with ⟨operand', inner', similar⟩ | zero
    · refine .inl ⟨_, ?_, foldUnary_similar op g similar⟩
      rw [simplify, inner']
      rfl
    · right
      rw [simplify, zero]
      rfl
  | binary op l r g ihl ihr =>
    rcases simplify_binary simplified with
      ⟨fn, v, called, answered, rfl⟩ | ⟨opened, l', r', left, right, folded⟩
    · refine .inl ⟨.number v g, ?_, .number _ _ _⟩
      rw [simplify, askCall, called]
      simp only [same.call, answered, answer]
      rfl
    · have unasked : askCall resolver' op l r = .ok none := by
        unfold askCall
        split
        · rename_i fn called
          rw [same.call, opened fn called]
          rfl
        · rfl
      rw [simplify, unasked]
      rcases ihl left with ⟨l'', left', similarLeft⟩ | zero
      · rcases ihr right with ⟨r'', right', similarRight⟩ | zero
        · rcases foldBinary_similar folded similarLeft similarRight with
            ⟨e', folded', similar⟩ | zero
          · refine .inl ⟨e', ?_, similar⟩
            rw [left', right']
            exact folded'
          · right
            rw [left', right']
            exact zero
        · right
          rw [left', zero]
          rfl
      · right
        rw [zero]
        rfl
  | absent =>
    cases simplified
    exact .inl ⟨_, rfl, .absent⟩

end Expr

namespace Context

/-- The same positions are known, with values that may differ. -/
structure Matches (ctx ctx' : Context) : Prop where
  symbols : ctx'.symbols = ctx.symbols
  finalize : ctx'.finalize = ctx.finalize
  known : ∀ j, (ctx'.position j).isSome = (ctx.position j).isSome

theorem Matches.resolver {ctx ctx' : Context} (same : ctx.Matches ctx') (line : Line) :
    (ctx.resolver line).Matches (ctx'.resolver line) := by
  constructor
  · simp only [Symbols.labelsOn, same.symbols]
  · intro s v asked
    simp only [Symbols.labelsOn, Symbols.known, Symbols.labelValue] at asked ⊢
    rw [same.symbols, same.finalize]
    split
    · rename_i register
      rw [if_pos register] at asked
      exact ⟨v, asked, rfl⟩
    · rename_i register
      rw [if_neg register] at asked
      cases character : characterValue? s with
      | some n =>
        rw [character] at asked
        exact ⟨v, asked, rfl⟩
      | none =>
        rw [character] at asked
        cases found : ctx.symbols.find? s line.global line.scope with
        | none =>
          simp only [found] at asked ⊢
          exact ⟨v, asked, rfl⟩
        | some entry =>
          have both := same.known entry.2.line.toNat
          simp only [found] at asked ⊢
          cases placed : ctx.position entry.2.line.toNat with
          | some pos =>
            rw [placed] at both asked
            obtain ⟨pos', placed'⟩ := Option.isSome_iff_exists.1 both
            cases asked
            exact ⟨some (Int64.ofNat pos' + entry.2.offset), by rw [placed'], rfl⟩
          | none =>
            rw [placed, Option.isSome_none, Option.isSome_eq_false_iff,
              Option.isNone_iff_eq_none] at both
            rw [placed] at asked
            rw [both]
            exact ⟨v, asked, rfl⟩

theorem Matches.evaluate {ctx ctx' : Context} (same : ctx.Matches ctx') {line : Line}
    {tree x : Expr} (evaluated : ctx.evaluate line tree = .ok x) :
    (∃ x', ctx'.evaluate line tree = .ok x' ∧ x.Similar x') ∨
      ctx'.evaluate line tree = .error .divisionByZero := by
  unfold Context.evaluate
  rcases Expr.simplify_similar (same.resolver line) (evaluate_ok evaluated) with
    ⟨x', simplified, similar⟩ | zero
  · exact .inl ⟨x', by rw [simplified], similar⟩
  · right
    rw [zero]
    rfl

end Context

namespace Expr

theorem symbols_of_silent {e e' : Expr}
    (simplified : e.simplify (Resolver.silent : Resolver Empty) = .ok e') :
    e'.symbols = e.symbols := by
  induction e generalizing e' with
  | leaf text g =>
    rcases simplify_leaf simplified with ⟨n, literal, rfl⟩ | ⟨_, ⟨n, asked, _⟩ | ⟨_, rfl⟩⟩
    · simp [symbols, literal]
    · cases asked
    · rfl
  | number n g => cases simplified; rfl
  | unary op e g ih =>
    obtain ⟨operand, inner, rfl⟩ := simplify_unary simplified
    have same := ih inner
    rcases foldUnary_cases op operand g with ⟨_, _, _, rfl, _, folded⟩ | ⟨_, folded⟩ <;>
    · rw [folded]
      exact same
  | binary op l r g ihl ihr =>
    rcases simplify_binary simplified with
      ⟨_, _, _, answered, _⟩ | ⟨_, l', r', left, right, folded⟩
    · cases answered
    · have sameLeft := ihl left
      have sameRight := ihr right
      rcases foldBinary_cases folded with ⟨_, _, _, _, _, rfl, rfl, _, rfl⟩ | ⟨_, rfl⟩
      · rw [symbols, symbols, ← sameLeft, ← sameRight]
        rfl
      · rw [symbols, symbols, sameLeft, sameRight]
  | absent => cases simplified; rfl

theorem symbols_reduce (e : Expr) : (reduce e).symbols = e.symbols := by
  unfold reduce
  split
  · rename_i simplified
    exact symbols_of_silent simplified
  · rfl

theorem symbols_commutable (e : Expr) : e.commutable.symbols = e.symbols := by
  induction e with
  | unary op e g ih => exact ih
  | binary op l r g ihl ihr =>
    simp only [commutable]
    split
    · rw [symbols, symbols_reduce, symbols, symbols, ihl, ihr]
    · split
      · rw [symbols, symbols_reduce, symbols, symbols, symbols, ihl, ihr]
        rfl
      · rw [symbols, symbols, ihl, ihr]
  | _ => rfl

theorem mentions_commutable (name : String) (e : Expr) :
    e.commutable.mentions name = e.mentions name := by
  rw [mentions, mentions, count, count, symbols_commutable]

theorem mentions_binary (name op : String) (l r : Expr) (g : Bool) :
    (binary op l r g).mentions name = (l.mentions name || r.mentions name) := by
  simp only [mentions, count, symbols, List.countP_append]
  by_cases left : 0 < l.symbols.countP fun s => Text.alike s name
  · simp [left, Nat.lt_add_right _ left]
  · simp [Nat.eq_zero_of_not_pos left]

variable {grammar : Grammar}

theorem mentions_of_bring {name : String} {e top : Expr}
    (brought : bring grammar name e = some top) :
    e.mentions name = true := by
  induction e generalizing top with
  | leaf text g => exact mentions_of_isNamed (bring_leaf brought).2
  | binary op l r g ihl ihr =>
    rw [mentions_binary]
    obtain ⟨child, other, ⟨rfl, rfl⟩ | ⟨_, rfl, rfl⟩, inner, below, _⟩ := bring_binary brought
    · rw [ihl below, Bool.true_or]
    · rw [ihr below, Bool.or_true]
  | number n g => cases brought
  | unary op e g => cases brought
  | absent => cases brought

/-- The way from the root to the symbol leads through sums and the left sides of differences, and
what stands beside it is accepted. -/
def leadsTo (name : String) (accepted : Expr → Bool) : Expr → Bool
  | leaf text g => (leaf text g).isNamed name
  | binary op l r _ =>
    if l.mentions name then (op == "+" || op == "-") && accepted r && l.leadsTo name accepted
    else op == "+" && accepted l && r.leadsTo name accepted
  | _ => false

theorem leadsTo_of_isNamed {name : String} {accepted : Expr → Bool} {e : Expr}
    (named : e.isNamed name = true) : e.leadsTo name accepted = true := by
  cases e with
  | leaf text g => exact named
  | _ => cases named

theorem Similar.leadsTo_eq {name : String} {accepted : Expr → Bool} {e e' : Expr}
    (alike : ∀ {x x' : Expr}, Similar x x' → accepted x' = accepted x) (similar : Similar e e') :
    e'.leadsTo name accepted = e.leadsTo name accepted := by
  induction similar with
  | binary op g left right ihl ihr =>
    have mention : ∀ {x x' : Expr}, Similar x x' → x'.mentions name = x.mentions name := by
      intro x x' similar
      rw [mentions, mentions, count, count, similar.symbols_eq]
    simp only [leadsTo, mention left, alike left, alike right, ihl, ihr]
  | _ => rfl

theorem leadsTo_of_bring {name : String} {e l r : Expr} {g : Bool}
    (brought : bring grammar name e.commutable = some (binary "+" l r g)) :
    e.leadsTo name (fun _ => true) = true := by
  induction e generalizing l r g with
  | leaf text g' =>
    simp only [commutable, bring] at brought
    split at brought
    · split at brought <;> cases brought
    · cases brought
  | number n g' => cases brought
  | unary op e g' => cases brought
  | absent => cases brought
  | binary op l' r' g' ihl ihr =>
    have below {child inner : Expr} (up : bring grammar name child.commutable = some inner)
        (ih : ∀ {l r : Expr} {g : Bool},
          bring grammar name child.commutable = some (binary "+" l r g) →
          child.leadsTo name (fun _ => true) = true)
        (kind : inner.isLeaf = true ∨ ∃ l r g, inner = binary "+" l r g) :
        child.mentions name = true ∧ child.leadsTo name (fun _ => true) = true := by
      refine ⟨mentions_commutable name child ▸ mentions_of_bring up, ?_⟩
      rcases kind with leaf | ⟨l, r, g, rfl⟩
      · exact leadsTo_of_isNamed (isNamed_of_commutable (isNamed_of_bring up leaf))
      · exact ih up
    simp only [commutable] at brought
    split at brought
    · rename_i minus
      obtain ⟨child, other, side, inner, up, shape⟩ := bring_binary brought
      have kind : inner.isLeaf = true ∨ ∃ l r g, inner = binary "+" l r g := by
        rcases shape with ⟨leaf, _⟩ | ⟨l, r, g, same, _⟩
        · exact .inl leaf
        · exact .inr ⟨l, r, g, same⟩
      rcases side with ⟨rfl, rfl⟩ | ⟨_, rfl, rfl⟩
      · obtain ⟨mentioned, leads⟩ := below up ihl kind
        rw [leadsTo, if_pos mentioned, minus, leads]
        simp
      · rw [bring_reduce_unary] at up
        cases up
    · split at brought
      · -- A quotient is now a product, and what comes up through it is one too.
        exact absurd (op_of_bring brought) (by decide)
      · obtain rfl : "+" = op := op_of_bring brought
        obtain ⟨child, other, side, inner, up, shape⟩ := bring_binary brought
        have kind : inner.isLeaf = true ∨ ∃ l r g, inner = binary "+" l r g := by
          rcases shape with ⟨leaf, _⟩ | ⟨l, r, g, same, _⟩
          · exact .inl leaf
          · exact .inr ⟨l, r, g, same⟩
        rcases side with ⟨rfl, rfl⟩ | ⟨unmentioned, rfl, rfl⟩
        · obtain ⟨mentioned, leads⟩ := below up ihl kind
          rw [leadsTo, if_pos mentioned, leads]
          rfl
        · obtain ⟨_, leads⟩ := below up ihr kind
          rw [mentions_commutable] at unmentioned
          rw [leadsTo, unmentioned, leads]
          rfl

theorem leadsTo_of_carries {name : String} {e : Expr} {n : Int64} (reduced : e.Reduced)
    (carried : Carries grammar name e.commutable n) : e.leadsTo name isNumber = true := by
  have mentioned {child : Expr} {p : Int64} (below : Carries grammar name child.commutable p) :
      child.mentions name = true := by
    rw [← mentions_commutable]
    rcases below with ⟨named, _⟩ | ⟨_, _, _, brought, _⟩
    · exact mentions_of_isNamed named
    · exact mentions_of_bring brought
  induction e generalizing n with
  | leaf text g =>
    rcases carried with ⟨named, _⟩ | ⟨l, r, g', brought, _⟩
    · exact named
    · exact leadsTo_of_bring brought
  | number m g => rcases carried with ⟨named, _⟩ | ⟨l, r, g', brought, _⟩ <;> contradiction
  | unary op e g ih => rcases carried with ⟨named, _⟩ | ⟨l, r, g', brought, _⟩ <;> contradiction
  | absent => rcases carried with ⟨named, _⟩ | ⟨l, r, g', brought, _⟩ <;> contradiction
  | binary op l r g ihl ihr =>
    obtain ⟨reducedLeft, reducedRight, _⟩ := reduced_binary reduced
    rcases carried with ⟨named, _⟩ | ⟨l', r', g', brought, folded⟩
    · exact absurd (isNamed_of_commutable named) (by simp [Expr.isNamed, symbol?])
    · simp only [commutable] at brought
      split at brought
      · rename_i minus
        obtain ⟨p, q, rfl, ⟨below, far⟩ | ⟨below, _⟩⟩ := carries_sum brought folded
        · obtain ⟨b, operand, _⟩ := yields_unary (foldsTo_reduce far)
          obtain ⟨gb, rfl⟩ := number_of_commutable reducedRight operand
          rw [leadsTo, if_pos (mentioned below), ihl reducedLeft below, minus]
          simp [isNumber]
        · exact absurd below not_carries_reduce_unary
      · split at brought
        · exact absurd (op_of_bring brought) (by decide)
        · obtain rfl : "+" = op := op_of_bring brought
          obtain ⟨p, q, rfl, ⟨below, far⟩ | ⟨below, far⟩⟩ := carries_sum brought folded
          · obtain ⟨gq, rfl⟩ := number_of_commutable reducedRight far
            rw [leadsTo, if_pos (mentioned below), ihl reducedLeft below]
            rfl
          · obtain ⟨gq, rfl⟩ := number_of_commutable reducedLeft far
            rw [leadsTo, if_neg (by simp [mentions, count, symbols]), ihr reducedRight below]
            rfl

theorem bring_of_isNamed (grammar : Grammar) {name : String} {e : Expr}
    (named : e.isNamed name = true) : bring grammar name e = some e ∧ e.isLeaf = true := by
  cases e with
  | leaf text g =>
    obtain ⟨s, symbol, same⟩ := (Option.any_eq_true _ _).1 named
    exact ⟨by simp only [bring, symbol, same, if_true], rfl⟩
  | _ => cases named

theorem rotate_sum (grammar : Grammar) (name : String) (l r other : Expr) (g g' onLeft : Bool) :
    rotate grammar "+" g name onLeft (binary "+" l r g') other =
      some (binary "+" (itself name l r)
        (reduce (binary "+" (beside name l r) other false)) g) := by
  simp only [rotate, isNamed_eq, itself, beside]
  by_cases named : l.isNamed name = true <;> simp [named, isAssociative, isCommutative]

theorem isNumber_reduce_sum {l r : Expr} (left : l.isNumber = true) (right : r.isNumber = true)
    (g : Bool) : (reduce (binary "+" l r g)).isNumber = true := by
  cases l with
  | number a ga =>
    cases r with
    | number b gb => rfl
    | _ => cases right
  | _ => cases left

/-- The symbol comes up as an operand of a sum, beside a number if that is asked for. -/
def ComesUp (grammar : Grammar) (name : String) (exactly : Prop) (e : Expr) : Prop :=
  e.isNamed name = true ∨ ∃ l r g, bring grammar name e = some (binary "+" l r g) ∧
    (exactly → (beside name l r).isNumber = true)

section

variable {name : String} {exactly : Prop} {l r : Expr} {g : Bool}

theorem comesUp_left (up : l.ComesUp grammar name exactly) (mentioned : l.mentions name = true)
    (other : exactly → r.isNumber = true) : (binary "+" l r g).ComesUp grammar name exactly := by
  right
  rcases up with named | ⟨l', r', g', below, number⟩
  · obtain ⟨same, leaf⟩ := bring_of_isNamed grammar named
    refine ⟨l, r, g, by simp [bring, callOp, mentioned, same, leaf], ?_⟩
    rwa [beside, if_pos named]
  · have named := itself_isNamed below
    refine ⟨itself name l' r', reduce (binary "+" (beside name l' r') r false), g,
      by simp [bring, callOp, mentioned, below, isLeaf, rotate_sum], ?_⟩
    intro asked
    rw [beside, if_pos named]
    exact isNumber_reduce_sum (number asked) (other asked) false

theorem comesUp_right (up : r.ComesUp grammar name exactly) (unmentioned : l.mentions name = false)
    (other : exactly → l.isNumber = true) : (binary "+" l r g).ComesUp grammar name exactly := by
  right
  rcases up with named | ⟨l', r', g', below, number⟩
  · obtain ⟨same, leaf⟩ := bring_of_isNamed grammar named
    have unnamed : ¬ l.isNamed name = true := by
      intro left
      rw [mentions_of_isNamed left] at unmentioned
      cases unmentioned
    refine ⟨l, r, g, by simp [bring, callOp, unmentioned, same, leaf], ?_⟩
    rwa [beside, if_neg unnamed]
  · have named := itself_isNamed below
    refine ⟨itself name l' r', reduce (binary "+" (beside name l' r') l false), g,
      by simp [bring, callOp, unmentioned, below, isLeaf, rotate_sum], ?_⟩
    intro asked
    rw [beside, if_pos named]
    exact isNumber_reduce_sum (number asked) (other asked) false

end

theorem comesUp_of_leadsTo {name : String} {accepted : Expr → Bool} {e : Expr}
    (leads : e.leadsTo name accepted = true) :
    e.commutable.ComesUp grammar name (∀ x, accepted x = true → x.isNumber = true) := by
  have kept {x : Expr} (number : x.isNumber = true) : x.commutable.isNumber = true := by
    cases x with
    | number => rfl
    | _ => cases number
  induction e with
  | leaf text g => exact .inl leads
  | number n g => cases leads
  | unary op e g => cases leads
  | absent => cases leads
  | binary op l r g ihl ihr =>
    rw [leadsTo] at leads
    split at leads
    · rename_i mentioned
      simp only [Bool.and_eq_true, Bool.or_eq_true, beq_iff_eq] at leads
      obtain ⟨⟨rfl | rfl, accepts⟩, below⟩ := leads
      · refine comesUp_left (ihl below) (by rwa [mentions_commutable]) ?_
        intro numbers
        exact kept (numbers r accepts)
      · refine comesUp_left (ihl below) (by rwa [mentions_commutable]) ?_
        intro numbers
        cases r with
        | number b gb => rfl
        | _ => cases numbers _ accepts
    · rename_i unmentioned
      simp only [Bool.and_eq_true, beq_iff_eq] at leads
      obtain ⟨⟨rfl, accepts⟩, below⟩ := leads
      refine comesUp_right (ihr below) (by rw [mentions_commutable]; simpa using unmentioned) ?_
      intro numbers
      exact kept (numbers l accepts)

end Expr

end WordAsm
