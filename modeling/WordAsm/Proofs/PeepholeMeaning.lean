import WordAsm.Proofs.InstructionFields
import WordAsm.Proofs.Rewrites

/-!
Peephole substitution keeps what an instruction does. Each rule is a rewrite of the mnemonic and
the literal, and a chain of substitutions is a sequence of rewrites, whose last literal is the one
that the word holds.
-/
namespace WordAsm

namespace Expr

theorem group_foldUnary (op : String) (e : Expr) (g : Bool) :
    (foldUnary op e g).group = foldUnary op e true := by
  unfold foldUnary
  split
  · split <;> rfl
  · rfl

theorem group_foldBinary (op : String) (l r : Expr) (g : Bool) :
    (foldBinary op l r g : Except (EvalError ε) Expr).map group = foldBinary op l r true := by
  unfold foldBinary
  split
  · split <;> rfl
  · rfl

theorem simplify_group (resolver : Resolver ε) (e : Expr) :
    e.group.simplify resolver = (e.simplify resolver).map group := by
  cases e with
  | leaf text g =>
    simp only [group, simplify, askSymbol]
    cases Literal.number? text with
    | some n => rfl
    | none => rcases answer (resolver.symbol text) with f | _ | n <;> rfl
  | number n g => rfl
  | unary op e g =>
    simp only [group, simplify]
    cases e.simplify resolver with
    | error f => rfl
    | ok operand => exact congrArg Except.ok (group_foldUnary op operand g).symm
  | binary op l r g =>
    simp only [group, simplify]
    rcases askCall resolver op l r with f | _ | v
    · rfl
    · cases l.simplify resolver with
      | error f => rfl
      | ok left =>
        cases r.simplify resolver with
        | error f => rfl
        | ok right => exact (group_foldBinary op left right g).symm
    · rfl
  | absent => rfl

theorem yields_group {resolver : Resolver ε} {e : Expr} {n : Int64}
    (yields : e.group.Yields resolver n) : e.Yields resolver n := by
  obtain ⟨g, simplified⟩ := yields
  rw [simplify_group] at simplified
  cases inner : e.simplify resolver with
  | error f =>
    rw [inner] at simplified
    cases simplified
  | ok e' =>
    rw [inner] at simplified
    cases e' with
    | number n' g' =>
      cases simplified
      exact ⟨g', inner⟩
    | _ => cases simplified

end Expr

namespace Operand

section

variable {ctx : Context} {line : Line} {o left : Operand} {code v : UInt16}

def Amounts (ctx : Context) (line : Line) (o : Operand) (v : UInt16) : Prop :=
  ∃ raw tree last latched n, o = expression raw tree last latched ∧
    tree.Yields (ctx.resolver line) n ∧ v = lowWord n

theorem constant_none (low : ¬ Field.literal ≤ code) (short : code ≠ Field.nextWord) :
    o.constant? code = none := by
  unfold constant?
  rw [if_neg low, if_neg (by simpa using short)]

theorem constant_literal (fits : v ≤ Field.maxLiteral) :
    o.constant? (Field.literal + v) = some v := by
  have above : Field.literal ≤ Field.literal + v := by
    have small : v.toNat ≤ 31 := UInt16.le_iff_toNat_le.1 fits
    rw [UInt16.le_iff_toNat_le, UInt16.toNat_add, show Field.literal.toNat = 32 from rfl]
    omega
  unfold constant?
  rw [if_pos above, UInt16.add_comm, UInt16.add_sub_cancel]

theorem constant_of_literalField {raw : String} {tree e : Expr} {latched latched' : Bool}
    (classified : fieldOf raw e latched = .ok code)
    (constant : (expression raw tree e latched').constant? code = some v) :
    code = literalField e latched ∧ ∃ n g, e = .number n g ∧ v = lowWord n := by
  have other (low : ¬ Field.literal ≤ code) (short : code ≠ Field.nextWord) : False := by
    rw [constant_none low short] at constant
    cases constant
  rcases fieldOf_cases classified with ⟨_, _, rfl⟩ | ⟨_, _, r, _, _, rfl⟩ |
    ⟨_, _, _, _, spelled⟩ | ⟨_, _, rfl⟩
  · exact (other (by decide) (by decide)).elim
  · refine (other ?_ ?_).elim
    · split <;> cases r <;> decide
    · split <;> cases r <;> decide
  · obtain ⟨low, short⟩ := Field.spelling_not_literal spelled
    exact (other low short).elim
  · refine ⟨rfl, ?_⟩
    cases e with
    | number n g =>
      refine ⟨n, g, rfl, ?_⟩
      simp only [literalField] at constant
      split at constant
      · rename_i fits
        simp only [Bool.and_eq_true, decide_eq_true_eq] at fits
        rw [constant_literal fits.2] at constant
        cases constant
        rfl
      · cases constant
        rfl
    | _ => cases constant

theorem amounts_of_constant (wellRead : o.WellRead)
    (classified : o.field ctx line = (.ok code, left)) (constant : left.constant? code = some v) :
    o.Amounts ctx line v ∧ ∀ finalize words, left.extra code finalize = .ok words →
      (Argument.ofField code (words.headD 0)).literal? = some v := by
  cases o with
  | fixed code' raw =>
    cases classified
    obtain ⟨low, short⟩ := Field.spelling_not_literal wellRead
    rw [constant_none low short] at constant
    cases constant
  | expression raw tree last latched =>
    obtain ⟨e, latched', evaluated, known, rfl⟩ := field_expression classified
    obtain ⟨rfl, n, g, rfl, rfl⟩ := constant_of_literalField known constant
    refine ⟨⟨raw, tree, last, latched, n, rfl, ⟨g, Context.evaluate_ok evaluated⟩, rfl⟩, ?_⟩
    intro finalize words given
    exact literal_of_number given

def Computed (o : Operand) : Prop :=
  ∃ raw tree last latched, o = expression raw tree last latched ∧ tree.isGrouped = false ∧
    ∀ text g, tree ≠ .leaf text g

theorem amounts_of_short (computed : o.Computed) (classified : o.field ctx line = (.ok code, left))
    (short : Field.hasNextWord code = false) :
    ∃ v, o.Amounts ctx line v ∧ code = Field.literal + v ∧ v ≤ Field.maxLiteral := by
  obtain ⟨raw, tree, last, latched, rfl, ungrouped, compound⟩ := computed
  obtain ⟨e, latched', evaluated, known, rfl⟩ := field_expression classified
  have simplified := Context.evaluate_ok evaluated
  have plain : isBracketed raw e = false := by
    rw [isBracketed, Expr.isGrouped_simplify simplified, ungrouped, Bool.false_and]
  rcases fieldOf_cases known with ⟨square, _⟩ | ⟨square, _⟩ | ⟨_, _, _, symbol, _⟩ | ⟨_, _, rfl⟩
  · rw [plain] at square
    cases square
  · rw [plain] at square
    cases square
  · cases e with
    | leaf text g => exact absurd (Expr.leaf_of_simplify simplified) (compound text g)
    | _ => cases symbol
  · cases e with
    | number n g =>
      simp only [literalField] at short ⊢
      split at short
      · rename_i fits
        rw [if_pos fits]
        simp only [Bool.and_eq_true, decide_eq_true_eq] at fits
        exact ⟨lowWord n, ⟨raw, tree, last, latched, n, rfl, ⟨g, simplified⟩, rfl⟩, rfl, fits.2⟩
      · cases short
    | _ => cases short

theorem same_argument {o' left' : Operand} {code' : UInt16} {finalize : Bool} {words : List UInt16}
    (classified : o.field ctx line = (.ok code, left))
    (given : left.extra code finalize = .ok words)
    (same : o'.fresh = o.fresh) (classified' : o'.field ctx line = (.ok code', left'))
    (alone : Field.hasNextWord code' = false) :
    Argument.ofField code' 0 = .ofField code (words.headD 0) ∨
      ∃ w, (Argument.ofField code (words.headD 0)).literal? = some w ∧
        (Argument.ofField code' 0).literal? = some w := by
  cases o with
  | fixed code₀ raw =>
    cases o' with
    | fixed code₁ raw' =>
      cases same
      cases classified
      cases classified'
      cases given
      exact .inl rfl
    | expression => cases same
  | expression raw tree last latched =>
    cases o' with
    | fixed => cases same
    | expression raw' tree' last' latched' =>
      cases same
      obtain ⟨e, _, evaluated, known, rfl⟩ := field_expression classified
      obtain ⟨e', _, evaluated', known', rfl⟩ := field_expression classified'
      rw [evaluated] at evaluated'
      cases evaluated'
      rcases fieldOf_relatched known known' with rfl | ⟨rfl, rfl⟩
      · obtain rfl := extra_alone alone given
        exact .inl rfl
      · cases e with
        | number n g =>
          refine .inr ⟨lowWord n, literal_of_number given, ?_⟩
          have short : (expression raw tree (.number n g) false).extra
              (literalField (.number n g) latched') true = .ok [] := by
            simp only [extra, alone, Bool.not_false, if_true]
          have decoded := literal_of_number short
          rwa [List.headD_nil] at decoded
        | _ => cases alone

end

end Operand

namespace BasicOperation

section

variable {ctx : Context} {line : Line} {position : Int} {i sub left : BasicOperation}

theorem exponent_ok {v : UInt16} {k : Nat} (known : exponent? v = some k) :
    v.toNat = 1 <<< k ∧ k < 16 := by
  have power := List.find?_some known
  have member := List.mem_of_find?_eq_some known
  exact ⟨(eq_of_beq power).symm, List.mem_range.1 member⟩

/-- The word after an instruction of one word. -/
abbrev following (position : Int) : UInt16 := lowWord (Int64.ofInt (position + 1))

theorem following_eq (position : Nat) : following position = UInt16.ofNat (position + 1) := by
  rw [following, show (position : Int) + 1 = ((position + 1 : Nat) : Int) from rfl,
    Int64.ofInt_eq_ofNat, lowWord_ofNat]

/-- What a rule makes of an instruction whose fields are known. -/
structure Replaced (ctx : Context) (line : Line) (position : Int) (i : BasicOperation)
    (codeA codeB : UInt16) (sub : BasicOperation) : Prop where
  first : sub.a = i.a.fresh
  computed : sub.b.Computed
  wellRead : i.b.WellRead → sub.b.WellRead
  counter : i.op = .set → codeA = Field.pc
  rewrite : ∀ v', sub.b.Amounts ctx line v' → ∃ v, i.b.constant? codeB = some v ∧
    BasicOp.Rewrite (following position) i.op v sub.op v'

theorem amounts_negated {raw : String} {tree : Expr} {v : UInt16}
    (amounts : (negated raw tree).Amounts ctx line v) :
    ∃ n, tree.Yields (ctx.resolver line) n ∧ v = -lowWord n := by
  obtain ⟨_, _, _, _, n, same, yields, rfl⟩ := amounts
  cases same
  obtain ⟨b, inner, sign⟩ := Expr.yields_unary yields
  obtain rfl : -b = n := by simpa [Expr.unaryValue] using sign
  exact ⟨b, Expr.yields_group inner, lowWord_neg b⟩

theorem amounts_relative {raw : String} {tree : Expr} {next : Int} {v : UInt16}
    (amounts : (relative raw tree next).Amounts ctx line v) :
    ∃ n, tree.Yields (ctx.resolver line) n ∧ v = lowWord n - lowWord (Int64.ofInt next) := by
  obtain ⟨_, _, _, _, n, same, yields, rfl⟩ := amounts
  cases same
  have uncalled : ∀ fn v, Expr.callee? "-" tree.group = some fn →
      (ctx.resolver line).call fn (.number (Int64.ofInt next) false) ≠ .ok (some v) := by
    intro fn v called
    simp [Expr.callee?, Expr.callOp] at called
  obtain ⟨a, b, inner, ⟨_, number⟩, difference⟩ := Expr.yields_binary uncalled yields
  cases number
  obtain rfl : a - Int64.ofInt next = n := by
    simpa [Expr.combine, Expr.binaryValue] using difference
  exact ⟨a, Expr.yields_group inner, lowWord_sub _ _⟩

theorem amounts_ofNumber {k : Nat} {v : UInt16} (amounts : (ofNumber k).Amounts ctx line v) :
    v = UInt16.ofNat k := by
  obtain ⟨_, _, _, _, n, same, ⟨_, number⟩, rfl⟩ := amounts
  cases same
  cases number
  exact lowWord_ofNat k

theorem constant_of_yields {o : Operand} {raw : String} {tree last : Expr} {latched : Bool}
    {code : UInt16} {n : Int64}
    (classified : o.field ctx line = (.ok code, .expression raw tree last latched))
    (yields : tree.Yields (ctx.resolver line) n) :
    (Operand.expression raw tree last latched).constant? Field.nextWord = some (lowWord n) := by
  obtain ⟨g, simplified⟩ := yields
  cases o with
  | fixed code' raw' => cases classified
  | expression raw' tree' last' latched' =>
    obtain ⟨e, _, evaluated, _, same⟩ := Operand.field_expression classified
    cases same
    rw [Context.evaluate_ok evaluated] at simplified
    cases simplified
    rfl

theorem replaced_negated {codeA codeB : UInt16} {raw : String} {tree : Expr} {op : BasicOp}
    (constant : ∀ n, tree.Yields (ctx.resolver line) n → i.b.constant? codeB = some (lowWord n))
    (free : i.b.WellRead → tree.isdefFree = true) (arithmetic : i.op ≠ .set)
    (rewrite : ∀ v, BasicOp.Rewrite (following position) i.op v op (-v)) :
    Replaced ctx line position i codeA codeB ⟨op, i.a.fresh, negated raw tree⟩ where
  first := rfl
  computed := ⟨_, _, _, _, rfl, rfl, by simp⟩
  wellRead := by
    intro wellRead
    simp [negated, Operand.ofTree, Operand.WellRead, Expr.isdefFree, Expr.isdefFree_group,
      free wellRead]
  counter := fun jump => absurd jump arithmetic
  rewrite := by
    intro v' amounts
    obtain ⟨n, yields, rfl⟩ := amounts_negated amounts
    exact ⟨lowWord n, constant n yields, rewrite _⟩

theorem replaced_relative {codeB : UInt16} {raw : String} {tree : Expr}
    (constant : ∀ n, tree.Yields (ctx.resolver line) n → i.b.constant? codeB = some (lowWord n))
    (free : i.b.WellRead → tree.isdefFree = true) (jump : i.op = .set) :
    Replaced ctx line position i Field.pc codeB
      ⟨.add, i.a.fresh, relative raw tree (position + 1)⟩ where
  first := rfl
  computed := ⟨_, _, _, _, rfl, rfl, by simp⟩
  wellRead := by
    intro wellRead
    simp [relative, Operand.ofTree, Operand.WellRead, Expr.isdefFree, Expr.callee?,
      Expr.callOp, Expr.isdefFree_group, free wellRead]
  counter := fun _ => rfl
  rewrite := by
    intro v' amounts
    obtain ⟨n, yields, rfl⟩ := amounts_relative amounts
    rw [jump]
    exact ⟨lowWord n, constant n yields, .jump _⟩

theorem replaced_number {codeA codeB v : UInt16} {m : Nat} {op : BasicOp}
    (constant : i.b.constant? codeB = some v) (arithmetic : i.op ≠ .set)
    (rewrite : BasicOp.Rewrite (following position) i.op v op (UInt16.ofNat m)) :
    Replaced ctx line position i codeA codeB ⟨op, i.a.fresh, ofNumber m⟩ where
  first := rfl
  computed := ⟨_, _, _, _, rfl, rfl, by simp⟩
  wellRead := fun _ => rfl
  counter := fun jump => absurd jump arithmetic
  rewrite := by
    intro v' amounts
    rw [amounts_ofNumber amounts]
    exact ⟨v, constant, rewrite⟩

theorem replaced_long {replacing : Option BasicOp} {codeA : UInt16} {o : Operand} {raw : String}
    {tree last : Expr} {latched : Bool} {op : BasicOp} {b : Operand}
    (classified : o.field ctx line = (.ok Field.nextWord, i.b))
    (shape : i.b = .expression raw tree last latched)
    (rule : forLongLiteral position replacing i.op codeA raw tree = some (op, b)) :
    Replaced ctx line position i codeA Field.nextWord ⟨op, i.a.fresh, b⟩ := by
  rw [shape] at classified
  have constant (n : Int64) (yields : tree.Yields (ctx.resolver line) n) :
      i.b.constant? Field.nextWord = some (lowWord n) := by
    rw [shape]
    exact constant_of_yields classified yields
  have free (wellRead : i.b.WellRead) : tree.isdefFree = true := by
    rw [shape] at wellRead
    exact wellRead
  unfold forLongLiteral at rule
  cases kind : i.op with
  | set =>
    simp only [kind] at rule
    split at rule
    · rename_i counter
      cases rule
      rw [eq_of_beq counter]
      exact replaced_relative constant free kind
    · cases rule
  | add =>
    simp only [kind] at rule
    split at rule
    · cases rule
    · cases rule
      exact replaced_negated constant free (by simp [kind]) (kind ▸ .add)
  | sub =>
    simp only [kind] at rule
    split at rule
    · cases rule
    · cases rule
      exact replaced_negated constant free (by simp [kind]) (kind ▸ .sub)
  | _ => simp [kind] at rule

theorem replaced_power {codeA codeB v : UInt16} {k : Nat} {op : BasicOp} {b : Operand}
    (constant : i.b.constant? codeB = some v) (power : exponent? v = some k)
    (rule : forPower i.op k = some (op, b)) :
    Replaced ctx line position i codeA codeB ⟨op, i.a.fresh, b⟩ := by
  obtain ⟨power, bound⟩ := exponent_ok power
  unfold forPower at rule
  cases kind : i.op with
  | mul =>
    rw [kind] at rule
    cases rule
    exact replaced_number constant (by simp [kind]) (kind ▸ .mul power bound)
  | div =>
    rw [kind] at rule
    cases rule
    exact replaced_number constant (by simp [kind]) (kind ▸ .div power bound)
  | mod =>
    rw [kind] at rule
    cases rule
    exact replaced_number constant (by simp [kind]) (kind ▸ .mod power bound)
  | _ => simp [kind] at rule

theorem replaced_of_rules {replacing : Option BasicOp} {codeA codeB : UInt16} {o : Operand}
    (classified : o.field ctx line = (.ok codeB, i.b))
    (replaced : i.replacement? position replacing codeA codeB = some sub) :
    Replaced ctx line position i codeA codeB sub := by
  obtain ⟨op, b, rfl, ⟨rfl, raw, tree, last, latched, shape, rule⟩ |
    ⟨v, k, constant, power, rule⟩⟩ := replacement_ok replaced
  · exact replaced_long classified shape rule
  · exact replaced_power constant power rule

/-- What substitution ends in, if it succeeds: an instruction of one word with a literal that
was rewritten from that of the first one. -/
structure Substituted (ctx : Context) (line : Line) (position : Int) (i : BasicOperation)
    (codeA codeB subA v v' : UInt16) (left sub : BasicOperation) : Prop where
  op : left.op = i.op
  fieldA : i.a.field ctx line = (.ok codeA, left.a)
  fieldB : i.b.field ctx line = (.ok codeB, left.b)
  constant : left.b.constant? codeB = some v
  counter : i.op = .set → codeA = Field.pc
  wellRead : i.b.WellRead → sub.b.WellRead
  first : sub.a.fresh = i.a.fresh
  subFieldA : sub.a.field ctx line = (.ok subA, sub.a)
  subFieldB : sub.b.field ctx line = (.ok (Field.literal + v'), sub.b)
  alone : Field.hasNextWord subA = false
  fits : v' ≤ Field.maxLiteral
  rewrite : BasicOp.Rewrite (following position) i.op v sub.op v'

theorem Replaced.ends {codeA codeB subA subB : UInt16} {sub₀ : BasicOperation}
    (step : Replaced ctx line position left codeA codeB sub₀)
    (fields : i.fields ctx line = (.ok (codeA, codeB), left))
    (subFields : sub₀.fields ctx line = (.ok (subA, subB), sub))
    (short : isShort subA subB = true) :
    ∃ v v', Substituted ctx line position i codeA codeB subA v v' left sub := by
  obtain ⟨op, fieldA, fieldB⟩ := fields_ok fields
  obtain ⟨subOp, subFieldA, subFieldB⟩ := fields_ok subFields
  simp only [isShort, Bool.and_eq_true, Bool.not_eq_true'] at short
  obtain ⟨v', amounts, rfl, fits⟩ := Operand.amounts_of_short step.computed subFieldB short.2
  obtain ⟨v, constant, rewrite⟩ := step.rewrite v' amounts
  rw [op, ← subOp] at rewrite
  exact ⟨v, v', {
    op, fieldA, fieldB, constant, fits, rewrite
    counter := op ▸ step.counter
    wellRead := fun wellRead => Operand.wellRead_congr (Operand.fresh_left subFieldB)
      (step.wellRead (Operand.wellRead_congr (Operand.fresh_left fieldB) wellRead))
    first := by
      rw [Operand.fresh_left subFieldA, step.first, Operand.fresh_fresh, Operand.fresh_left fieldA]
    subFieldA := Operand.field_left subFieldA
    subFieldB := Operand.field_left subFieldB
    alone := short.1 }⟩

theorem Replaced.continues {codeA codeB codeA' codeB' subA v₀ v' : UInt16}
    {sub₀ sub₁ : BasicOperation} (step : Replaced ctx line position left codeA codeB sub₀)
    (fields : i.fields ctx line = (.ok (codeA, codeB), left)) (wellRead : sub₀.b.WellRead)
    (chain : Substituted ctx line position sub₀ codeA' codeB' subA v₀ v' sub₁ sub) :
    ∃ v, Substituted ctx line position i codeA codeB subA v v' left sub := by
  obtain ⟨op, fieldA, fieldB⟩ := fields_ok fields
  have amounts := (Operand.amounts_of_constant wellRead chain.fieldB chain.constant).1
  obtain ⟨v, constant, rewrite⟩ := step.rewrite v₀ amounts
  rw [op] at rewrite
  exact ⟨v, { chain with
    op, fieldA, fieldB, constant
    counter := op ▸ step.counter
    wellRead := fun _ => chain.wellRead wellRead
    first := by rw [chain.first, step.first, Operand.fresh_fresh, Operand.fresh_left fieldA]
    rewrite := rewrite.trans chain.rewrite }⟩

theorem substituted {depth : Nat} {replacing : Option BasicOp} {replaced : BasicOp}
    (wellRead : i.b.WellRead)
    (chosen : (i.substitute ctx line position depth replacing).1 = .ok (some (replaced, sub))) :
    ∃ codeA codeB subA v v',
      Substituted ctx line position i codeA codeB subA v v' (i.fields ctx line).2 sub := by
  -- Each step of the chain is one rule, and what follows it is again a substitution.
  induction depth generalizing replacing replaced i with
  | zero => cases chosen
  | succ depth ih =>
    obtain ⟨_, codeA, codeB, left, sub₀, subA, subB, same, fields, rule, rest, _, short⟩ :=
      substitute_ok chosen
    cases same
    rw [fields]
    obtain ⟨_, _, fieldB⟩ := fields_ok fields
    have step := replaced_of_rules fieldB rule
    rcases rest with ⟨_, _, last⟩ | next
    · obtain ⟨v, v', ends⟩ := step.ends fields last short
      exact ⟨codeA, codeB, subA, v, v', ends⟩
    · have readable : sub₀.b.WellRead :=
        step.wellRead (Operand.wellRead_congr (Operand.fresh_left fieldB) wellRead)
      obtain ⟨_, _, subA', v₀, v', chain⟩ := ih readable next
      obtain ⟨v, continued⟩ := step.continues fields readable chain
      exact ⟨codeA, codeB, subA', v, v', continued⟩

theorem Substituted.target {position : Nat} {codeA codeB subA v v' word : UInt16}
    (chain : Substituted ctx line position i codeA codeB subA v v' left sub) (jump : i.op = .set)
    (first : Argument.ofField subA 0 = .ofField codeA word ∨
      ∃ w, (Argument.ofField codeA word).literal? = some w ∧
        (Argument.ofField subA 0).literal? = some w) :
    (Decoded.basic sub.op (.ofField subA 0) (.ofField (Field.literal + v') 0)).target? position =
      some (v.toNat, .jump) := by
  have counter : Argument.ofField subA 0 = .pc := by
    rw [chain.counter jump] at first
    rcases first with same | ⟨w, other, _⟩
    · exact same
    · cases other
  have goes : sub.op.destination (UInt16.ofNat (position + 1)) v' = some v := by
    rw [← following_eq]
    apply BasicOp.destination_of_rewrite chain.rewrite
    rw [jump]
    rfl
  obtain ⟨_, literal, single⟩ := Field.literal_ok chain.fits
  rw [counter]
  apply Decoded.target_of_destination literal
  rwa [Decoded.size_counter single]

end

end BasicOperation

/-- Substitution keeps the meaning: where the words of a basic instruction with and without it
differ, both have a literal as the second operand and the same first operand. A jump that sets the
program counter still goes to the value of its operand; otherwise what is computed from the first
operand is the same for every value of it. -/
theorem substitution_keeps_meaning {s : Symbols} {line : Line} {written : BasicOperation}
    {used : Option BasicOperation} {ctx : Context} {position : Nat} {plain optimal : List UInt16}
    (read : Instruction.read s line = .ok (Instruction.basic written used).fresh)
    (emitted : ((Instruction.basic written used).emit false ctx line position).1 = .ok plain)
    (optimized : ((Instruction.basic written used).emit true ctx line position).1 = .ok optimal)
    (differs : optimal ≠ plain) :
    ∃ a b v op a' b' v', decode? plain = some (.basic written.op a b) ∧ b.literal? = some v ∧
      decode? optimal = some (.basic op a' b') ∧ b'.literal? = some v' ∧
      (a' = a ∨ ∃ w, a.literal? = some w ∧ a'.literal? = some w) ∧
      (∃ raw tree last latched n, written.b = .expression raw tree last latched ∧
        tree.HasValue (ctx.valuation line) n ∧ v = lowWord n) ∧
      ((written.op = .set ∧ a = .pc ∧
          (Decoded.basic op a' b').target? position = some (v.toNat, .jump)) ∨
        (written.op ∈ [BasicOp.add, .sub, .mul, .div, .mod] ∧
          ∀ x, ∃ y, written.op.compute x v = some y ∧ op.compute x v' = some y)) := by
  obtain ⟨_, wellReadA, wellReadB⟩ := Instruction.wellRead_of_read read
  rw [Instruction.emit_plain] at emitted
  rw [Instruction.emit, Instruction.emitBasic_optimized] at optimized
  rcases outcome : (written.substitute ctx line position BasicOperation.chainLength none).1
    with f | _ | ⟨_, sub⟩
  · rw [outcome] at optimized
    cases optimized
  · rw [outcome] at optimized
    have same : Except.ok optimal = Except.ok plain := optimized.symm.trans emitted
    cases same
    exact absurd rfl differs
  rw [outcome] at optimized
  obtain ⟨codeA, codeB, subA, v, v', chain⟩ := BasicOperation.substituted wellReadB outcome
  obtain ⟨_, _, _, _, extraA, extraB, fieldA, fieldB, givenA, givenB, rfl⟩ :=
    BasicOperation.encode_ok emitted
  cases chain.fieldA.symm.trans fieldA
  cases chain.fieldB.symm.trans fieldB
  obtain ⟨_, _, _, _, subExtraA, subExtraB, subFieldA, subFieldB, subGivenA, subGivenB, rfl⟩ :=
    BasicOperation.encode_ok optimized
  cases chain.subFieldA.symm.trans subFieldA
  cases chain.subFieldB.symm.trans subFieldB
  have takenA := Operand.takes wellReadA fieldA givenA
  have takenB := Operand.takes wellReadB fieldB givenB
  have subTakenA :=
    Operand.takes (Operand.wellRead_congr chain.first wellReadA) chain.subFieldA subGivenA
  have subTakenB := Operand.takes (chain.wellRead wellReadB) chain.subFieldB subGivenB
  obtain ⟨alone, literal', _⟩ := Field.literal_ok chain.fits
  obtain rfl : subExtraA = [] := by simpa [chain.alone] using subTakenA.length
  obtain rfl : subExtraB = [] := by simpa [alone] using subTakenB.length
  obtain ⟨⟨raw, tree, last, latched, n, shape, yields, value⟩, literal⟩ :=
    Operand.amounts_of_constant wellReadB chain.fieldB chain.constant
  have decoded := Decoded.ofWords_basic written.op takenA takenB []
  have decoded' := Decoded.ofWords_basic sub.op subTakenA subTakenB []
  have first := Operand.same_argument fieldA givenA chain.first chain.subFieldA chain.alone
  rw [List.append_nil] at decoded decoded'
  refine ⟨_, _, v, sub.op, _, _, v', congrArg some decoded, literal _ _ givenB,
    congrArg some decoded', literal', first, ?_, ?_⟩
  · exact ⟨raw, tree, last, latched, n, shape, Context.hasValue_of_yields yields, value⟩
  · by_cases jump : written.op = .set
    · refine .inl ⟨jump, by rw [chain.counter jump]; rfl, ?_⟩
      exact chain.target jump first
    · exact .inr (BasicOp.compute_of_rewrite chain.rewrite jump).2

-- Backwards from 101 to 90: the addition of -11 is still long, so it becomes a subtraction.
theorem substitution_keeps_meaning_backwards :
    let line : Line := ⟨["SET", "PC", "90"], "", [], "jump", 1⟩
    let ctx : Context := ⟨{}, fun _ => none, true⟩
    let written : BasicOperation :=
      ⟨.set, .fixed Field.pc "PC", .ofTree "90" (.number 90 false)⟩
    ∃ a b v op a' b' v', decode? [0x7DC1, 90] = some (.basic written.op a b) ∧
      b.literal? = some v ∧ decode? [0xADC3] = some (.basic op a' b') ∧ b'.literal? = some v' ∧
      (a' = a ∨ ∃ w, a.literal? = some w ∧ a'.literal? = some w) ∧
      (∃ raw tree last latched n, written.b = .expression raw tree last latched ∧
        tree.HasValue (ctx.valuation line) n ∧ v = lowWord n) ∧
      ((written.op = .set ∧ a = .pc ∧
          (Decoded.basic op a' b').target? 100 = some (v.toNat, .jump)) ∨
        (written.op ∈ [BasicOp.add, .sub, .mul, .div, .mod] ∧
          ∀ x, ∃ y, written.op.compute x v = some y ∧ op.compute x v' = some y)) := by
  intro line ctx written
  have read : Instruction.read {} line = .ok (Instruction.basic written none).fresh :=
    ok_of_toOption (by decide +kernel)
  have emitted : ((Instruction.basic written none).emit false ctx line (100 : Nat)).1 =
      .ok [0x7DC1, 90] := ok_of_toOption (by decide +kernel)
  have optimized : ((Instruction.basic written none).emit true ctx line (100 : Nat)).1 =
      .ok [0xADC3] := ok_of_toOption (by decide +kernel)
  exact substitution_keeps_meaning read emitted optimized (by decide)

end WordAsm
