import WordAsm.Proofs.EmissionFaults
import WordAsm.Proofs.PeepholeMeaning
import WordAsm.Proofs.Shapes

/-!
Whether a statement can be emitted does not depend on where statements are. If it can be emitted
in one context without the optimizer, it can be emitted in every context where the same positions
are known, with the optimizer or without it, unless an expression divides by zero there.
-/
namespace WordAsm

/-- A computation fails only where an expression divides by zero. -/
abbrev Completes (x : Except Fault α) : Prop := FailsWith (fun f => f = .divisionByZero) x

namespace Operand

section

variable {ctx ctx' : Context} {line : Line} {raw name : String} {e e' : Expr}

theorem besideRegister_sum (name : String) (l r : Expr) (g : Bool) :
    besideRegister? name (.binary "+" l r g) = some (Expr.beside name l r) := by
  simp only [besideRegister?, bne_self_eq_false, Bool.false_eq_true, if_false, Expr.beside,
    Expr.isNamed]
  split <;> rename_i named <;> simp [named]

theorem beside_similar {other : Expr} (reduced : e.Reduced) (similar : e.Similar e')
    (found : (Expr.bringToTop .standard e.commutable name).bind (besideRegister? name) =
      some other) :
    ∃ other', (Expr.bringToTop .standard e'.commutable name).bind (besideRegister? name) =
      some other' ∧
      (other.isNumber = true → other'.isNumber = true) := by
  obtain ⟨top, brought, beside⟩ := Option.bind_eq_some_iff.1 found
  obtain ⟨l, r, g, rfl, rfl⟩ := beside_of_besideRegister beside
  unfold Expr.bringToTop at brought
  split at brought
  · rename_i once
    have once' : (e'.commutable.count name == 1) = true := by
      rwa [Expr.count, Expr.symbols_commutable, similar.symbols_eq, ← Expr.symbols_commutable]
    have unnamed' : ¬ e'.isNamed name = true := by
      intro named
      rw [Expr.isNamed, similar.symbol_eq] at named
      cases e with
      | leaf text g' =>
        exact absurd (Expr.bring_of_isNamed .standard named).1 (by simp_all [Expr.commutable])
      | _ => cases named
    have risen {accepted : Expr → Bool} (leads : e'.leadsTo name accepted = true) :
        ∃ other', (Expr.bringToTop .standard e'.commutable name).bind (besideRegister? name) =
          some other' ∧
          ((∀ x, accepted x = true → x.isNumber = true) → other'.isNumber = true) := by
      rcases Expr.comesUp_of_leadsTo leads with named | ⟨l', r', g', brought', number⟩
      · exact absurd (Expr.isNamed_of_commutable named) unnamed'
      · refine ⟨Expr.beside name l' r', ?_, number⟩
        rw [Expr.bringToTop, if_pos once', brought', Option.bind_some, besideRegister_sum]
    by_cases number : (Expr.beside name l r).isNumber = true
    · have carried : ∃ n, Expr.Carries .standard name e.commutable n := by
        cases same : Expr.beside name l r with
        | number n gn => exact ⟨n, .inr ⟨l, r, g, brought, same ▸ Expr.foldsTo_number n gn⟩⟩
        | _ => simp [same, Expr.isNumber] at number
      obtain ⟨n, carried⟩ := carried
      have leads := Expr.leadsTo_of_carries reduced carried
      rw [← @Expr.Similar.leadsTo_eq name Expr.isNumber e e' (·.isNumber_eq) similar] at leads
      obtain ⟨other', found', exactly⟩ := risen leads
      exact ⟨other', found', fun _ => exactly fun x accepts => accepts⟩
    · have leads := Expr.leadsTo_of_bring brought
      rw [← @Expr.Similar.leadsTo_eq name _ e e' (fun _ => rfl) similar] at leads
      obtain ⟨other', found', _⟩ := risen leads
      exact ⟨other', found', fun yes => absurd yes number⟩
  · cases brought

theorem displacement_similar {finalize : Bool} {w : UInt16} (reduced : e.Reduced)
    (similar : e.Similar e') (given : displacement raw e finalize = .ok w) :
    ∃ w', displacement raw e' finalize = .ok w' := by
  unfold displacement at given ⊢
  rw [similar.symbols_eq]
  split at given
  · rename_i name only
    cases found : (Expr.bringToTop .standard e.commutable name).bind (besideRegister? name) with
    | none =>
      rw [found] at given
      cases given
    | some other =>
      obtain ⟨other', found', number⟩ := beside_similar reduced similar found
      simp only [found, found'] at given ⊢
      cases other' with
      | number n g => exact ⟨_, rfl⟩
      | _ =>
        cases finalize with
        | false => exact ⟨0, rfl⟩
        | true =>
          cases other with
          | number n g => cases number rfl
          | _ => cases given
  · cases given

theorem fieldOf_similar {latched : Bool} {code : UInt16} (similar : e.Similar e')
    (classified : fieldOf raw e latched = .ok code) (latched' : Bool) :
    ∃ code', fieldOf raw e' latched' = .ok code' ∧
      (code' = code ∨ code = literalField e latched ∧ code' = literalField e' latched') := by
  unfold fieldOf bracketField registerField firstRegister? isBracketed Expr.isSymbol at *
  rw [similar.symbols_eq, similar.isGrouped_eq, similar.symbol_eq]
  split at classified
  · rename_i bracketed
    rw [if_pos bracketed]
    exact ⟨code, classified, .inl rfl⟩
  · rename_i plain
    rw [if_neg plain]
    split at classified
    · rename_i name first
      split at classified
      · rename_i alone
        simp only [alone, if_true]
        exact ⟨code, classified, .inl rfl⟩
      · cases classified
    · cases classified
      exact ⟨_, rfl, .inr ⟨rfl, rfl⟩⟩

theorem nextWord_le_literalField (tree : Expr) (latched : Bool) :
    Field.nextWord ≤ literalField tree latched := by
  unfold literalField
  split
  · split
    · rename_i short
      simp only [Bool.and_eq_true, decide_eq_true_eq, UInt16.le_iff_toNat_le] at short
      have small : (lowWord _).toNat ≤ 31 := short.2
      rw [UInt16.le_iff_toNat_le, UInt16.toNat_add, show Field.literal.toNat = 32 from rfl,
        show Field.nextWord.toNat = 31 from rfl]
      omega
    · decide
  · decide

theorem pop_le_literalField (tree : Expr) (latched : Bool) :
    ¬ literalField tree latched < Field.pop := by
  have high := nextWord_le_literalField tree latched
  rw [UInt16.le_iff_toNat_le, show Field.nextWord.toNat = 31 from rfl] at high
  rw [UInt16.lt_iff_toNat_lt, show Field.pop.toNat = 24 from rfl]
  omega

theorem wordOf_similar {finalize : Bool} {w : UInt16} (similar : e.Similar e')
    (given : wordOf raw e finalize = .ok w) : ∃ w', wordOf raw e' finalize = .ok w' := by
  cases similar with
  | number => exact ⟨_, rfl⟩
  | _ =>
    cases finalize with
    | false => exact ⟨0, rfl⟩
    | true => cases given

theorem wordOf_literal {tree : Expr} {latched latched' finalize : Bool} {words : List UInt16}
    (given : (expression raw tree e latched').extra (literalField e latched) finalize =
      .ok words) : ∃ w, wordOf raw e finalize = .ok w := by
  cases e with
  | number n g => exact ⟨_, rfl⟩
  | _ =>
    obtain ⟨w, _, found⟩ := extra_next (by rfl) given
    rw [if_neg (pop_le_literalField _ _)] at found
    exact ⟨w, found⟩

theorem extra_similar {tree : Expr} {latched latched' left left' : Bool} {finalize : Bool}
    {code code' : UInt16} {words : List UInt16} (reduced : e.Reduced) (similar : e.Similar e')
    (same : code' = code ∨ code = literalField e latched ∧ code' = literalField e' latched')
    (given : (expression raw tree e left).extra code finalize = .ok words) :
    ∃ words', (expression raw tree e' left').extra code' finalize = .ok words' := by
  have enough (found : ∃ w, (if code' < Field.pop then displacement raw e' finalize
      else wordOf raw e' finalize) = .ok w) :
      ∃ words', (expression raw tree e' left').extra code' finalize = .ok words' := by
    obtain ⟨w, found⟩ := found
    simp only [extra]
    split
    · exact ⟨[], rfl⟩
    · exact ⟨[w], by rw [found]⟩
  rcases same with rfl | ⟨rfl, rfl⟩
  · cases next : Field.hasNextWord code' with
    | false => exact ⟨[], by simp [extra, next]⟩
    | true =>
      obtain ⟨w, _, found⟩ := extra_next next given
      apply enough
      split
      · rename_i displaced
        rw [if_pos displaced] at found
        exact displacement_similar reduced similar found
      · rename_i alone
        rw [if_neg alone] at found
        exact wordOf_similar similar found
  · obtain ⟨w, found⟩ := wordOf_literal given
    apply enough
    rw [if_neg (pop_le_literalField e' latched')]
    exact wordOf_similar similar found

theorem field_similar {o o' left : Operand} {code : UInt16} {words : List UInt16}
    (same : ctx.Matches ctx') (fresh : o'.fresh = o.fresh)
    (classified : o.field ctx line = (.ok code, left))
    (given : left.extra code ctx.finalize = .ok words) :
    (∃ code' left' words', o'.field ctx' line = (.ok code', left') ∧
      left'.extra code' ctx'.finalize = .ok words') ∨
    ∃ left', o'.field ctx' line = (.error .divisionByZero, left') := by
  cases o with
  | fixed code₀ raw =>
    cases o' with
    | fixed code₁ raw' => exact .inl ⟨_, _, [], rfl, rfl⟩
    | expression => cases fresh
  | expression raw tree last latched =>
    cases o' with
    | fixed => cases fresh
    | expression raw' tree' last' latched' =>
      cases fresh
      obtain ⟨e, _, evaluated, known, rfl⟩ := field_expression classified
      have reduced := Expr.reduced_of_simplify (Context.evaluate_ok evaluated)
      rcases same.evaluate evaluated with ⟨e', evaluated', similar⟩ | zero
      · obtain ⟨code', known', codes⟩ := fieldOf_similar similar known latched'
        rw [same.finalize]
        obtain ⟨words', given'⟩ := @extra_similar raw e e' tree latched latched' _
          (latched' || (ctx'.finalize && code' == Field.nextWord)) _ _ _ _ reduced similar
            codes given
        left
        refine ⟨code', _, words', ?_, given'⟩
        simp only [field, evaluated', known']
      · exact .inr ⟨expression raw tree last' latched', by simp only [field, zero]⟩

end

end Operand

theorem completes_division : Completes (.error .divisionByZero : Except Fault α) := by
  intro f failed
  cases failed
  rfl

section

variable {ctx ctx' : Context} {line : Line} {words : List UInt16}

theorem BasicOperation.encode_similar {i i' : BasicOperation} (same : ctx.Matches ctx')
    (fresh : i'.fresh = i.fresh) (encoded : (i.encode ctx line).1 = .ok words) :
    Completes (i'.encode ctx' line).1 := by
  obtain ⟨codeA, a, codeB, b, extraA, extraB, fieldA, fieldB, givenA, givenB, _⟩ :=
    encode_ok encoded
  simp only [BasicOperation.fresh, BasicOperation.mk.injEq] at fresh
  unfold encode fields
  rcases Operand.field_similar same fresh.2.1 fieldA givenA with
    ⟨codeA', a', extraA', fieldA', givenA'⟩ | ⟨a', zero⟩
  · rcases Operand.field_similar same fresh.2.2 fieldB givenB with
      ⟨codeB', b', extraB', fieldB', givenB'⟩ | ⟨b', zero⟩
    · simp only [fieldA', fieldB', assemble, givenA', givenB']
      exact failsWith_ok _
    · simp only [fieldA', zero]
      exact completes_division
  · simp only [zero]
    exact completes_division

theorem SpecialOperation.encode_similar {i i' : SpecialOperation} (same : ctx.Matches ctx')
    (fresh : i'.fresh = i.fresh) (encoded : (i.encode ctx line).1 = .ok words) :
    Completes (i'.encode ctx' line).1 := by
  obtain ⟨code, a, extra, field, given, _⟩ := encode_ok encoded
  simp only [SpecialOperation.fresh, SpecialOperation.mk.injEq] at fresh
  unfold encode
  rcases Operand.field_similar same fresh.2 field given with
    ⟨code', a', extra', field', given'⟩ | ⟨a', zero⟩
  · simp only [field', assemble, given']
    exact failsWith_ok _
  · simp only [zero]
    exact completes_division

theorem DataItem.emitAll_similar {items items' : List DataItem} {cells : List Cell}
    (same : ctx.Matches ctx') (fresh : items'.map fresh = items.map fresh)
    (emitted : (emitAll ctx line items).1 = .ok cells) :
    Completes (emitAll ctx' line items').1 := by
  induction items generalizing items' cells with
  | nil =>
    obtain rfl := List.map_eq_nil_iff.1 fresh
    exact failsWith_ok _
  | cons item rest ih =>
    obtain ⟨item', rest', rfl, first, others⟩ := List.map_eq_cons_iff.1 fresh
    rcases here : item.emit ctx line with ⟨_ | own, left⟩
    · simp [emitAll, here] at emitted
    rcases later : emitAll ctx line rest with ⟨_ | more, left'⟩
    · simp [emitAll, here, later] at emitted
    have completes : Completes (item'.emit ctx' line).1 := by
      cases item with
      | string words isPacked raw =>
        cases item' with
        | string => exact failsWith_ok _
        | value => cases first
      | value tree last raw =>
        cases item' with
        | string => cases first
        | value tree' last' raw' =>
          cases first
          cases evaluated : ctx.evaluate line tree with
          | error f => simp [emit, evaluated] at here
          | ok e =>
            rcases same.evaluate evaluated with ⟨e', evaluated', similar⟩ | zero
            · cases similar with
              | number n n' g =>
                simp only [emit, evaluated']
                exact failsWith_ok _
              | _ =>
                cases final : ctx.finalize with
                | true => simp [emit, evaluated, final] at here
                | false =>
                  simp only [emit, evaluated', same.finalize, final]
                  exact failsWith_ok _
            · simp only [emit, zero]
              exact completes_division
    have completes' := ih others (by rw [later])
    unfold emitAll
    split
    · rename_i failed
      exact completes.error (congrArg Prod.fst failed)
    · split
      · rename_i failed
        exact completes'.error (congrArg Prod.fst failed)
      · exact failsWith_ok _

end

theorem Expr.symbols_group (e : Expr) : e.group.symbols = e.symbols := by cases e <;> rfl

theorem Context.evaluate_of_simplify {ctx : Context} {line : Line} {tree e : Expr}
    (simplified : tree.simplify (ctx.resolver line) = .ok e) : ctx.evaluate line tree = .ok e := by
  rw [evaluate, simplified]

namespace Operand

/-- The operand is a literal: neither in brackets nor with a register. -/
def IsLiteral (ctx : Context) (line : Line) : Operand → Prop
  | fixed .. => False
  | expression raw tree _ _ => ∃ e, ctx.evaluate line tree = .ok e ∧ isBracketed raw e = false ∧
    firstRegister? e = none

section

variable {ctx : Context} {line : Line} {o : Operand} {raw : String} {tree : Expr}

theorem field_of_isLiteral (literal : o.IsLiteral ctx line) :
    ∃ code left, o.field ctx line = (.ok code, left) ∧ left.IsLiteral ctx line := by
  cases o with
  | fixed => cases literal
  | expression raw tree last latched =>
    obtain ⟨e, evaluated, plain, first⟩ := literal
    have known : fieldOf raw e latched = .ok (literalField e latched) := by
      simp [fieldOf, plain, first]
    exact ⟨literalField e latched, expression raw tree e
      (latched || (ctx.finalize && literalField e latched == Field.nextWord)),
      by simp only [field, evaluated, known], e, evaluated, plain, first⟩

theorem isLiteral_of_nextWord {last : Expr} {latched : Bool}
    (classified : o.field ctx line = (.ok Field.nextWord, expression raw tree last latched)) :
    (expression raw tree last latched).IsLiteral ctx line := by
  cases o with
  | fixed => cases classified
  | expression raw' tree' last' latched' =>
    obtain ⟨e, _, evaluated, known, same⟩ := field_expression classified
    cases same
    rcases fieldOf_cases known with ⟨_, _, other⟩ | ⟨_, _, r, _, _, other⟩ |
      ⟨_, _, _, _, spelled⟩ | ⟨plain, first, _⟩
    · cases other
    · split at other <;> cases r <;> cases other
    · exact absurd rfl (Field.spelling_not_literal spelled).2
    · exact ⟨_, evaluated, plain, first⟩

theorem isLiteral_ofTree {raw' : String} {tree' e e' : Expr} (first : firstRegister? e = none)
    (simplified : tree'.simplify (ctx.resolver line) = .ok e') (open_ : tree'.isGrouped = false)
    (symbols : e'.symbols = e.symbols) : (ofTree raw' tree').IsLiteral ctx line := by
  refine ⟨e', Context.evaluate_of_simplify simplified, ?_, ?_⟩
  · rw [isBracketed, Expr.isGrouped_simplify simplified, open_, Bool.false_and]
  · rw [firstRegister?, symbols]
    exact first

theorem isLiteral_negated {last : Expr} {latched : Bool}
    (literal : (expression raw tree last latched).IsLiteral ctx line) :
    (BasicOperation.negated raw tree).IsLiteral ctx line := by
  obtain ⟨e, evaluated, _, first⟩ := literal
  have simplified : (Expr.unary "-" tree.group false).simplify (ctx.resolver line) =
      .ok (Expr.foldUnary "-" e.group false) := by
    rw [Expr.simplify, Expr.simplify_group, Context.evaluate_ok evaluated]
    rfl
  refine isLiteral_ofTree first simplified rfl ?_
  rcases Expr.foldUnary_cases "-" e.group false with ⟨b, g, v, same, _, folded⟩ | ⟨_, folded⟩
  · rw [folded, ← Expr.symbols_group e, same]
    rfl
  · rw [folded, Expr.symbols, Expr.symbols_group]

theorem isLiteral_relative {last : Expr} {latched : Bool} {next : Int}
    (literal : (expression raw tree last latched).IsLiteral ctx line) :
    (BasicOperation.relative raw tree next).IsLiteral ctx line := by
  obtain ⟨e, evaluated, _, first⟩ := literal
  have inner : tree.group.simplify (ctx.resolver line) = .ok e.group := by
    rw [Expr.simplify_group, Context.evaluate_ok evaluated]
    rfl
  obtain ⟨e', folded⟩ : ∃ e',
      (Expr.foldBinary "-" e.group (.number (Int64.ofInt next) false) false :
      Except (EvalError Fault) Expr) = .ok e' := by
    unfold Expr.foldBinary
    split
    · simp [Expr.binaryValue]
    · exact ⟨_, rfl⟩
  have simplified : (Expr.binary "-" tree.group (.number (Int64.ofInt next) false) false).simplify
      (ctx.resolver line) = .ok e' := by
    have unasked : Expr.askCall (ctx.resolver line) "-" tree.group
        (.number (Int64.ofInt next) false) = .ok none := by
      simp [Expr.askCall, Expr.callee?, Expr.callOp]
    rw [Expr.simplify, unasked]
    simp only [inner]
    exact folded
  refine isLiteral_ofTree first simplified rfl ?_
  rcases Expr.foldBinary_cases folded with ⟨a, ga, b, gb, v, same, _, _, rfl⟩ | ⟨_, rfl⟩
  · rw [← Expr.symbols_group e, same]
    rfl
  · rw [Expr.symbols, Expr.symbols_group, Expr.symbols, List.append_nil]

theorem isLiteral_ofNumber (n : Nat) : (BasicOperation.ofNumber n).IsLiteral ctx line :=
  ⟨.number (Int64.ofNat n) false, rfl, rfl, rfl⟩

end

end Operand

namespace BasicOperation

/-- What rules make of an instruction: its first operand with a literal. -/
structure Derived (ctx : Context) (line : Line) (a : Operand) (i : BasicOperation) : Prop where
  first : i.a.fresh = a
  second : i.b.IsLiteral ctx line

section

variable {ctx : Context} {line : Line} {position : Int} {i left sub : BasicOperation}

theorem derived_of_replacement {replacing : Option BasicOp} {codeA codeB : UInt16}
    (fields : i.fields ctx line = (.ok (codeA, codeB), left))
    (replaced : left.replacement? position replacing codeA codeB = some sub) :
    sub.Derived ctx line i.a.fresh := by
  obtain ⟨_, fieldA, fieldB⟩ := fields_ok fields
  obtain ⟨op, b, rfl, rule⟩ := replacement_ok replaced
  refine ⟨?_, ?_⟩
  · rw [Operand.fresh_fresh, Operand.fresh_left fieldA]
  · rcases rule with ⟨rfl, raw, tree, last, latched, written, rule⟩ | ⟨_, k, _, _, rule⟩
    · rw [written] at fieldB
      have literal := Operand.isLiteral_of_nextWord fieldB
      unfold forLongLiteral at rule
      split at rule
      · split at rule <;> cases rule
        exact Operand.isLiteral_relative literal
      · split at rule <;> cases rule
        exact Operand.isLiteral_negated literal
      · split at rule <;> cases rule
        exact Operand.isLiteral_negated literal
      · cases rule
    · unfold forPower at rule
      split at rule <;> cases rule <;> exact Operand.isLiteral_ofNumber _

theorem derived_fields {a : Operand} {s : BasicOperation} (derived : s.Derived ctx line a) :
    (s.fields ctx line).2.Derived ctx line a := by
  have fresh := s.a.fresh_field ctx line
  obtain ⟨code, b, field, literal⟩ := Operand.field_of_isLiteral derived.second
  unfold fields
  rcases fieldA : s.a.field ctx line with ⟨f | codeA, a'⟩
  · rw [fieldA] at fresh
    exact ⟨fresh.trans derived.first, derived.second⟩
  · rw [fieldA] at fresh
    simp only [field]
    exact ⟨fresh.trans derived.first, literal⟩

theorem derived_left {a : Operand} {s : BasicOperation} (derived : s.Derived ctx line a)
    (depth : Nat) (replacing : Option BasicOp) :
    (s.substitute ctx line position depth replacing).2.Derived ctx line a := by
  cases depth with
  | zero => exact derived
  | succ depth =>
    rw [substitute_left]
    exact derived_fields derived

theorem derived_of_substitute {depth : Nat} {replacing : Option BasicOp} {replaced : BasicOp}
    {s : BasicOperation}
    (chosen : (i.substitute ctx line position depth replacing).1 = .ok (some (replaced, s))) :
    s.Derived ctx line i.a.fresh := by
  induction depth generalizing i replacing replaced s with
  | zero => cases chosen
  | succ depth ih =>
    obtain ⟨_, _, _, left, sub, _, _, same, fields, given, rest, _, _⟩ := substitute_ok chosen
    cases same
    have derived := derived_of_replacement fields given
    rcases rest with ⟨_, _, last⟩ | next
    · have kept := derived_fields derived
      rw [last] at kept
      exact kept
    · have further := ih next
      rw [derived.first] at further
      exact further

theorem failsWith_fields {allowed : Fault → Prop} {a : Operand} {s : BasicOperation}
    (first : ∀ a' : Operand, a'.fresh = a → FailsWith allowed (a'.field ctx line).1)
    (derived : s.Derived ctx line a) : FailsWith allowed (s.fields ctx line).1 := by
  have fails := first s.a derived.first
  obtain ⟨code, b, field, literal⟩ := Operand.field_of_isLiteral derived.second
  unfold fields
  rcases fieldA : s.a.field ctx line with ⟨f | codeA, a'⟩
  · rw [fieldA] at fails
    exact fails.error rfl
  · simp only [field]
    exact failsWith_ok _

theorem failsWith_substitute {allowed : Fault → Prop}
    (first : ∀ a' : Operand, a'.fresh = i.a.fresh → FailsWith allowed (a'.field ctx line).1)
    (fields : FailsWith allowed (i.fields ctx line).1) (depth : Nat)
    (replacing : Option BasicOp) :
    FailsWith allowed (i.substitute ctx line position depth replacing).1 := by
  induction depth generalizing i replacing with
  | zero => exact failsWith_ok _
  | succ depth ih =>
    unfold substitute
    rcases here : i.fields ctx line with ⟨f | ⟨codeA, codeB⟩, left⟩
    · rw [here] at fields
      exact fields.error rfl
    simp only
    cases replaced : left.replacement? position replacing codeA codeB with
    | none => exact failsWith_ok _
    | some sub =>
      have derived := derived_of_replacement here replaced
      have first' : ∀ a' : Operand, a'.fresh = sub.a.fresh →
          FailsWith allowed (a'.field ctx line).1 := by
        rw [derived.first]
        exact first
      have fails := ih first' (failsWith_fields first derived) (some left.op)
      have kept := @derived_left ctx line position _ _ derived depth (some left.op)
      simp only
      rcases next : sub.substitute ctx line position depth (some left.op) with ⟨f | chosen, sub'⟩
      · rw [next] at fails
        exact fails.error rfl
      rw [next] at kept
      have last : (chosen.getD (left.op, sub')).2.Derived ctx line i.a.fresh := by
        cases chosen with
        | none => exact kept
        | some s' =>
          obtain ⟨replaced, s'⟩ := s'
          have further := @derived_of_substitute ctx line position sub depth (some left.op)
            replaced s' (by rw [next])
          rw [derived.first] at further
          exact further
      have fails' := failsWith_fields first last
      simp only
      rcases final : (chosen.getD (left.op, sub')).2.fields ctx line with ⟨f | ⟨subA, subB⟩, sub''⟩
      · rw [final] at fails'
        exact fails'.error rfl
      · exact failsWith_ok _

theorem encode_of_short {s : BasicOperation} {codeA codeB : UInt16}
    (fields : s.fields ctx line = (.ok (codeA, codeB), s)) (short : isShort codeA codeB = true) :
    (s.encode ctx line).1 = .ok [Word.encode s.op.opcode codeA codeB] := by
  simp only [isShort, Bool.and_eq_true, Bool.not_eq_true'] at short
  simp only [encode, fields, assemble, s.a.extra_single short.1, s.b.extra_single short.2]
  rfl

end

end BasicOperation

theorem Instruction.emit_similar {ctx ctx' : Context} {line : Line} {position position' : Int}
    {i i' : Instruction} {words : List UInt16} (same : ctx.Matches ctx')
    (fresh : i'.fresh = i.fresh) (emitted : (i.emit false ctx line position).1 = .ok words)
    (optimize : Bool) : Completes (i'.emit optimize ctx' line position').1 := by
  rw [emit_plain] at emitted
  cases i with
  | special written =>
    cases i' with
    | basic => cases fresh
    | special written' =>
      exact SpecialOperation.encode_similar same (Instruction.special.inj fresh) emitted
  | basic written used =>
    cases i' with
    | special => cases fresh
    | basic written' used' =>
      have read : written'.fresh = written.fresh := (Instruction.basic.inj fresh).1
      have plain := BasicOperation.encode_similar same read emitted
      cases optimize with
      | false => exact plain
      | true =>
        obtain ⟨codeA, a, codeB, b, extraA, extraB, fieldA, fieldB, givenA, givenB, _⟩ :=
          BasicOperation.encode_ok emitted
        simp only [BasicOperation.fresh, BasicOperation.mk.injEq] at read
        have field {o o' left : Operand} {code : UInt16} {words : List UInt16}
            (classified : o.field ctx line = (.ok code, left))
            (given : left.extra code ctx.finalize = .ok words) (read : o'.fresh = o.fresh) :
            Completes (o'.field ctx' line).1 := by
          rcases Operand.field_similar same read classified given with
            ⟨_, _, _, known, _⟩ | ⟨_, zero⟩
          · rw [known]
            exact failsWith_ok _
          · rw [zero]
            exact completes_division
        have first (a' : Operand) (unseen : a'.fresh = written'.a.fresh) :
            Completes (a'.field ctx' line).1 := field fieldA givenA (unseen.trans read.2.1)
        have fields : Completes (written'.fields ctx' line).1 := by
          unfold BasicOperation.fields
          split
          · rename_i failed
            exact (first written'.a rfl).error (congrArg Prod.fst failed)
          · split
            · rename_i failed
              exact (field fieldB givenB read.2.2).error (congrArg Prod.fst failed)
            · exact failsWith_ok _
        have completes := @BasicOperation.failsWith_substitute ctx' line position' written' _
          first fields BasicOperation.chainLength none
        rw [emit, emitBasic_optimized]
        split
        · rename_i failed
          exact completes.error failed
        · exact plain
        · rename_i replaced sub substituted
          obtain ⟨_, _, _, _, _, _, _, _, _, _, _, known, alone⟩ :=
            BasicOperation.substitute_ok substituted
          rw [BasicOperation.encode_of_short known alone]
          exact failsWith_ok _

/-- The statement is neither filling nor alignment. -/
def Statement.isUnpadded (st : Statement) : Bool :=
  match st.body with
  | .instruction _ | .data _ => true
  | .fill _ | .align _ => false

theorem Statement.emit_similar {ctx ctx' : Context} {position position' : Int}
    {old old' : Option Nat} {st st' : Statement} {words : List UInt16} (same : ctx.Matches ctx')
    (fresh : st'.fresh = st.fresh) (unpadded : st.isUnpadded = true)
    (emitted : (st.emit false ctx position old).outcome = .ok words) (optimize : Bool) :
    Completes (st'.emit optimize ctx' position' old').outcome := by
  obtain ⟨line, body⟩ := st
  obtain ⟨line', body'⟩ := st'
  simp only [Statement.fresh, Statement.mk.injEq] at fresh
  obtain ⟨rfl, read⟩ := fresh
  cases body with
  | instruction i =>
    cases body' with
    | instruction i' =>
      rw [outcome_instruction] at emitted ⊢
      exact Instruction.emit_similar same (Body.instruction.inj read) emitted optimize
    | _ => cases read
  | data d =>
    cases body' with
    | data d' =>
      simp only [Body.fresh, Body.data.injEq, Data.mk.injEq] at read
      obtain ⟨given, encoded, _⟩ := stored_ok emitted
      obtain ⟨cells, items, _⟩ := Data.emit_ok encoded
      have completes := DataItem.emitAll_similar same read.2 items
      refine failsWith_stored ?_
      rcases given' : DataItem.emitAll ctx' line' d'.items with ⟨f | cells', left'⟩
      · rw [given'] at completes
        exact completes.error rfl
      · exact failsWith_ok _
    | _ => cases read
  | fill f => cases unpadded
  | align a => cases unpadded

end WordAsm
