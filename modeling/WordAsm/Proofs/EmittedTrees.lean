import WordAsm.Proofs.PeepholeMeaning

/-!
What a statement is emitted from. A context has its say only through what it makes of the trees
that were read, for the trees of replacements are made of these. Contexts that make the same of the
trees of a statement emit the same for it.
-/
namespace WordAsm

/-- Two contexts make the same of these trees on a line. -/
structure Context.Agree (line : Line) (trees : List Expr) (ctx ctx' : Context) : Prop where
  final : ctx'.finalize = ctx.finalize
  evaluate : ∀ tree ∈ trees, ctx'.evaluate line tree = ctx.evaluate line tree

namespace Operand

/-- The tree of an operand, if it has one. -/
def trees : Operand → List Expr
  | fixed .. => []
  | expression _ tree _ _ => [tree]

theorem trees_fresh (o : Operand) : o.fresh.trees = o.trees := by cases o <;> rfl

end Operand

namespace BasicOperation

def trees (i : BasicOperation) : List Expr := i.a.trees ++ i.b.trees

theorem trees_of_fresh {i j : BasicOperation} (same : j.fresh = i.fresh) : j.trees = i.trees := by
  have first : j.a.fresh = i.a.fresh := congrArg BasicOperation.a same
  have second : j.b.fresh = i.b.fresh := congrArg BasicOperation.b same
  rw [trees, trees, ← j.a.trees_fresh, ← j.b.trees_fresh, first, second, Operand.trees_fresh,
    Operand.trees_fresh]

end BasicOperation

namespace Instruction

def trees : Instruction → List Expr
  | basic written _ => written.trees
  | special written => written.a.trees

end Instruction

def DataItem.trees : DataItem → List Expr
  | string .. => []
  | value tree _ _ => [tree]

/-- The trees that were read from the line of a statement. -/
def Statement.trees (st : Statement) : List Expr :=
  match st.body with
  | .instruction i => i.trees
  | .data d => d.items.flatMap DataItem.trees
  | .fill f => f.length :: f.value.toList
  | .align a => [a.boundary]

theorem Statement.trees_fresh (st : Statement) : st.fresh.trees = st.trees := by
  obtain ⟨line, body⟩ := st
  cases body with
  | instruction i =>
    cases i with
    | basic written used =>
      simp only [fresh, Body.fresh, Instruction.fresh, trees, Instruction.trees,
        BasicOperation.trees, BasicOperation.fresh, Operand.trees_fresh]
    | special written => exact written.a.trees_fresh
  | data d =>
    have kept (item : DataItem) : item.fresh.trees = item.trees := by cases item <;> rfl
    simp only [fresh, Body.fresh, trees, List.flatMap_map, kept]
  | fill f => rfl
  | align a => rfl

namespace Context

section

variable {line : Line} {trees : List Expr} {ctx ctx' : Context}

theorem Agree.mono {trees' : List Expr} (agree : Agree line trees ctx ctx')
    (inside : ∀ tree ∈ trees', tree ∈ trees) : Agree line trees' ctx ctx' :=
  ⟨agree.final, fun tree member => agree.evaluate tree (inside tree member)⟩

theorem agree_append {trees' : List Expr} : Agree line (trees ++ trees') ctx ctx' ↔
    Agree line trees ctx ctx' ∧ Agree line trees' ctx ctx' := by
  constructor
  · intro agree
    exact ⟨agree.mono fun _ => List.mem_append_left _, agree.mono fun _ => List.mem_append_right _⟩
  · rintro ⟨first, second⟩
    refine ⟨first.final, ?_⟩
    intro tree member
    rcases List.mem_append.1 member with member | member
    · exact first.evaluate tree member
    · exact second.evaluate tree member

theorem evaluate_bind {tree tree' : Expr} {f : Expr → Except (EvalError Fault) Expr}
    (made : ∀ resolver : Resolver Fault, tree'.simplify resolver = tree.simplify resolver >>= f)
    (same : ctx'.evaluate line tree = ctx.evaluate line tree) :
    ctx'.evaluate line tree' = ctx.evaluate line tree' := by
  simp only [Context.evaluate, made] at same ⊢
  cases here : tree.simplify (ctx.symbols.labelsOn ctx.position ctx.finalize line) with
  | error e =>
    cases there : tree.simplify (ctx'.symbols.labelsOn ctx'.position ctx'.finalize line) with
    | error e' =>
      rw [here, there] at same
      exact same
    | ok t' =>
      rw [here, there] at same
      cases same
  | ok t =>
    cases there : tree.simplify (ctx'.symbols.labelsOn ctx'.position ctx'.finalize line) with
    | error e' =>
      rw [here, there] at same
      cases same
    | ok t' =>
      rw [here, there] at same
      cases same
      rfl

theorem agree_negated (raw : String) {tree : Expr}
    (same : ctx'.evaluate line tree = ctx.evaluate line tree) :
    ∀ tree' ∈ (BasicOperation.negated raw tree).trees,
      ctx'.evaluate line tree' = ctx.evaluate line tree' := by
  intro tree' member
  rw [List.mem_singleton.1 member]
  refine @evaluate_bind _ _ _ tree _ (fun e => .ok (Expr.foldUnary "-" e.group false)) ?_ same
  intro resolver
  rw [Expr.simplify, Expr.simplify_group]
  cases tree.simplify resolver <;> rfl

theorem agree_relative (raw : String) (next : Int) {tree : Expr}
    (same : ctx'.evaluate line tree = ctx.evaluate line tree) :
    ∀ tree' ∈ (BasicOperation.relative raw tree next).trees,
      ctx'.evaluate line tree' = ctx.evaluate line tree' := by
  intro tree' member
  rw [List.mem_singleton.1 member]
  refine @evaluate_bind _ _ _ tree _
    (fun e => Expr.foldBinary "-" e.group (.number (Int64.ofInt next) false) false) ?_ same
  intro resolver
  have unasked : Expr.askCall resolver "-" tree.group (.number (Int64.ofInt next) false) =
      .ok none := by
    simp [Expr.askCall, Expr.callee?, Expr.callOp]
  rw [Expr.simplify, unasked, Expr.simplify_group]
  cases tree.simplify resolver <;> rfl

end

end Context

section

variable {line : Line} {ctx ctx' : Context}

open Context (Agree agree_append)

theorem Operand.field_agree {o : Operand} (agree : Agree line o.trees ctx ctx') :
    o.field ctx' line = o.field ctx line := by
  cases o with
  | fixed => rfl
  | expression raw tree last latched =>
    simp only [field, agree.evaluate tree (List.mem_singleton.2 rfl), agree.final]

namespace BasicOperation

variable {i sub : BasicOperation} {position : Int}

theorem fields_agree (agree : Agree line i.trees ctx ctx') :
    i.fields ctx' line = i.fields ctx line := by
  obtain ⟨first, second⟩ := agree_append.1 agree
  simp only [fields, Operand.field_agree first, Operand.field_agree second]

theorem encode_agree (agree : Agree line i.trees ctx ctx') :
    i.encode ctx' line = i.encode ctx line := by
  simp only [encode, fields_agree agree, agree.final]

theorem agree_of_replacement {replacing : Option BasicOp} {codeA codeB : UInt16}
    (replaced : i.replacement? position replacing codeA codeB = some sub)
    (agree : Agree line i.trees ctx ctx') : Agree line sub.trees ctx ctx' := by
  obtain ⟨op, b, rfl, rule⟩ := replacement_ok replaced
  obtain ⟨first, second⟩ := agree_append.1 agree
  refine agree_append.2 ⟨by rwa [Operand.trees_fresh], agree.final, ?_⟩
  rcases rule with ⟨_, raw, tree, last, latched, written, rule⟩ | ⟨_, k, _, _, rule⟩
  · have same := second.evaluate tree (by simp [written, Operand.trees])
    unfold forLongLiteral at rule
    split at rule
    · split at rule <;> cases rule
      exact Context.agree_relative raw _ same
    · split at rule <;> cases rule
      exact Context.agree_negated raw same
    · split at rule <;> cases rule
      exact Context.agree_negated raw same
    · cases rule
  · unfold forPower at rule
    split at rule <;> cases rule <;>
    · intro tree member
      rw [List.mem_singleton.1 member]
      rfl

theorem fresh_substitute (ctx : Context) (line : Line) (position : Int) (depth : Nat)
    (replacing : Option BasicOp) (i : BasicOperation) :
    (i.substitute ctx line position depth replacing).2.fresh = i.fresh := by
  cases depth with
  | zero => rfl
  | succ depth => rw [substitute_left, fresh_fields]

theorem agree_of_substitute {depth : Nat} {replacing : Option BasicOp} {replaced : BasicOp}
    {s : BasicOperation} (agree : Agree line i.trees ctx ctx')
    (chosen : (i.substitute ctx line position depth replacing).1 = .ok (some (replaced, s))) :
    Agree line s.trees ctx ctx' := by
  induction depth generalizing i replacing replaced with
  | zero => cases chosen
  | succ depth ih =>
    obtain ⟨_, _, _, left, sub, _, _, same, fields, given, rest, _⟩ := substitute_ok chosen
    cases same
    have read := i.fresh_fields ctx line
    rw [fields] at read
    have agree' := agree_of_replacement given (trees_of_fresh read ▸ agree)
    rcases rest with ⟨_, _, last⟩ | next
    · have read' := sub.fresh_fields ctx line
      rw [last] at read'
      exact trees_of_fresh read' ▸ agree'
    · exact ih agree' next

theorem substitute_agree (agree : Agree line i.trees ctx ctx') (depth : Nat)
    (replacing : Option BasicOp) :
    i.substitute ctx' line position depth replacing =
      i.substitute ctx line position depth replacing := by
  induction depth generalizing i replacing with
  | zero => rfl
  | succ depth ih =>
    have read := i.fresh_fields ctx line
    unfold substitute
    rw [fields_agree agree]
    rcases here : i.fields ctx line with ⟨f | ⟨codeA, codeB⟩, left⟩
    · rfl
    rw [here] at read
    simp only
    cases given : left.replacement? position replacing codeA codeB with
    | none => rfl
    | some sub =>
      have agree' : Agree line sub.trees ctx ctx' :=
        agree_of_replacement given (trees_of_fresh read ▸ agree)
      have read' := sub.fresh_substitute ctx line position depth (some left.op)
      simp only [ih agree' (some left.op)]
      rcases next : sub.substitute ctx line position depth (some left.op) with ⟨f | later, sub'⟩
      · rfl
      rw [next] at read'
      have last : Agree line (later.getD (left.op, sub')).2.trees ctx ctx' := by
        cases later with
        | none => exact trees_of_fresh read' ▸ agree'
        | some s => exact agree_of_substitute agree' (congrArg Prod.fst next)
      simp only [fields_agree last]

end BasicOperation

theorem Instruction.emit_agree {i : Instruction} (agree : Agree line i.trees ctx ctx')
    (optimize : Bool) (position : Int) :
    i.emit optimize ctx' line position = i.emit optimize ctx line position := by
  cases i with
  | special written =>
    simp only [emit, SpecialOperation.encode, Operand.field_agree agree, agree.final]
  | basic written used =>
    have fields := BasicOperation.fields_agree agree
    have encoded := BasicOperation.encode_agree agree
    cases optimize with
    | false => simp only [emit, emitBasic_plain, fields, encoded]
    | true =>
      have substituted := @BasicOperation.substitute_agree line ctx ctx' written position agree
        BasicOperation.chainLength none
      simp only [emit, emitBasic_optimized, fields, encoded, substituted]
      split
      · rfl
      · rfl
      · rename_i chosen
        rw [BasicOperation.encode_agree (BasicOperation.agree_of_substitute agree chosen)]

theorem DataItem.emitAll_agree {items : List DataItem}
    (agree : Agree line (items.flatMap DataItem.trees) ctx ctx') :
    emitAll ctx' line items = emitAll ctx line items := by
  induction items with
  | nil => rfl
  | cons item rest ih =>
    rw [List.flatMap_cons] at agree
    obtain ⟨first, later⟩ := agree_append.1 agree
    have here : item.emit ctx' line = item.emit ctx line := by
      cases item with
      | string => rfl
      | value tree last raw =>
        simp only [emit, first.evaluate tree (List.mem_singleton.2 rfl), first.final]
    simp only [emitAll, here, ih later]

theorem Fill.emit_agree {f : Fill} (agree : Agree line (f.length :: f.value.toList) ctx ctx')
    (old : Option Nat) : f.emit ctx' line old = f.emit ctx line old := by
  have same (tree : Expr) (member : tree ∈ f.length :: f.value.toList) :
      evaluate ctx' line tree = evaluate ctx line tree := by
    simp only [evaluate, agree.evaluate tree member, agree.final]
  have settled (n : Nat) : settle ctx' line old n = settle ctx line old n := by
    simp only [settle, agree.final]
  have length := same f.length List.mem_cons_self
  simp only [emit, length, settled]
  cases valued : f.value with
  | none => rfl
  | some tree => simp only [same tree (by simp [valued])]

theorem Statement.emit_agree {st : Statement} (agree : Agree st.line st.trees ctx ctx')
    (optimize : Bool) (position : Int) (old : Option Nat) :
    st.emit optimize ctx' position old = st.emit optimize ctx position old := by
  obtain ⟨line, body⟩ := st
  cases body with
  | instruction i => simp only [emit, Instruction.emit_agree agree]
  | data d => simp only [emit, Data.emit, DataItem.emitAll_agree agree]
  | fill f => simp only [emit, Fill.emit_agree agree]
  | align a =>
    have same := agree.evaluate a.boundary (List.mem_singleton.2 rfl)
    simp only [emit, Align.emit, Align.size, same, agree.final]

end

end WordAsm
