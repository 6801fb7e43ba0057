import WordAsm.Statement.Basic

/-!
What emitting a statement does to it. A pass leaves the trees of a statement as they were read.
What it changes (the trees as they were last simplified, the latches of operands, the replacement
of an instruction) does not change what the statement emits when nothing around it has changed:
its second emission equals the first one, down to the statement that it leaves.
-/
namespace WordAsm

namespace Operand

theorem fieldOf_latched {raw : String} {tree : Expr} {latched : Bool}
    (long : fieldOf raw tree latched = .ok Field.nextWord) :
    fieldOf raw tree true = .ok Field.nextWord := by
  unfold fieldOf at long ⊢
  split
  · rename_i bracketed
    rwa [if_pos bracketed] at long
  · rename_i plain
    rw [if_neg plain] at long
    cases named : firstRegister? tree with
    | some name => simpa only [named] using long
    | none => cases tree <;> rfl

theorem fieldOf_latch {raw : String} {tree : Expr} {latched finalize : Bool} {code : UInt16}
    (classified : fieldOf raw tree latched = .ok code) :
    fieldOf raw tree (latched || (finalize && code == Field.nextWord)) = .ok code := by
  by_cases long : code = Field.nextWord
  · subst long
    cases latched with
    | true => simpa using classified
    | false =>
      cases finalize with
      | true => simpa using fieldOf_latched classified
      | false => simpa using classified
  · have short : (code == Field.nextWord) = false := beq_eq_false_iff_ne.2 long
    simpa only [short, Bool.and_false, Bool.or_false] using classified

theorem field_again (ctx : Context) (line : Line) (o : Operand) :
    (o.field ctx line).2.field ctx line = o.field ctx line := by
  cases o with
  | fixed code raw => rfl
  | expression raw tree last latched =>
    cases evaluated : ctx.evaluate line tree with
    | error f => simp [field, evaluated]
    | ok tree' =>
      cases classified : fieldOf raw tree' latched with
      | error f => simp [field, evaluated, classified]
      | ok code =>
        have kept := @fieldOf_latch raw tree' latched ctx.finalize code classified
        simp only [field, evaluated, classified, kept, Bool.or_assoc, Bool.or_self]

theorem fresh_field (ctx : Context) (line : Line) (o : Operand) :
    (o.field ctx line).2.fresh = o.fresh := by
  cases o with
  | fixed code raw => rfl
  | expression raw tree last latched =>
    cases evaluated : ctx.evaluate line tree with
    | error f => simp only [field, evaluated]
    | ok tree' =>
      cases classified : fieldOf raw tree' latched <;>
        simp only [field, evaluated, classified, fresh]

end Operand

namespace BasicOperation

/-- The instruction as no pass has seen it. -/
def fresh (i : BasicOperation) : BasicOperation := ⟨i.op, i.a.fresh, i.b.fresh⟩

theorem fresh_fields (ctx : Context) (line : Line) (i : BasicOperation) :
    (i.fields ctx line).2.fresh = i.fresh := by
  have first := i.a.fresh_field ctx line
  have second := i.b.fresh_field ctx line
  unfold fields
  rcases fieldA : i.a.field ctx line with ⟨_ | codeA, a⟩
  · rw [fieldA] at first
    simp only [fresh, first]
  · rcases fieldB : i.b.field ctx line with ⟨_ | codeB, b⟩ <;>
    · rw [fieldA] at first
      rw [fieldB] at second
      simp only [fresh, first, second]

theorem op_fields (ctx : Context) (line : Line) (i : BasicOperation) :
    (i.fields ctx line).2.op = i.op :=
  congrArg (fun i => i.op) (i.fresh_fields ctx line)

theorem fields_again (ctx : Context) (line : Line) (i : BasicOperation) :
    (i.fields ctx line).2.fields ctx line = i.fields ctx line := by
  have first := i.a.field_again ctx line
  have second := i.b.field_again ctx line
  unfold fields
  rcases fieldA : i.a.field ctx line with ⟨_ | codeA, a⟩
  · simp only [fieldA] at first ⊢
    simp only [first]
  · rcases fieldB : i.b.field ctx line with ⟨_ | codeB, b⟩
    · simp only [fieldA, fieldB] at first second ⊢
      simp only [first, second]
    · simp only [fieldA, fieldB] at first second ⊢
      simp only [first, second]

theorem encode_eq (ctx : Context) (line : Line) (i : BasicOperation) :
    i.encode ctx line =
      ((i.fields ctx line).1.bind fun codes =>
        (i.fields ctx line).2.assemble codes.1 codes.2 ctx.finalize, (i.fields ctx line).2) := by
  unfold encode
  rcases i.fields ctx line with ⟨_ | ⟨codeA, codeB⟩, left⟩ <;> rfl

theorem encode_again (ctx : Context) (line : Line) (i : BasicOperation) :
    (i.fields ctx line).2.encode ctx line = i.encode ctx line := by
  simp only [encode_eq, fields_again]

theorem substitute_left (ctx : Context) (line : Line) (position : Int) (depth : Nat)
    (replacing : Option BasicOp) (i : BasicOperation) :
    (i.substitute ctx line position (depth + 1) replacing).2 = (i.fields ctx line).2 := by
  unfold substitute
  split
  · rename_i fields; rw [fields]
  · rename_i fields
    rw [fields]
    split
    · rfl
    · split
      · rfl
      · simp only
        split <;> rfl

theorem substitute_again (ctx : Context) (line : Line) (position : Int) (depth : Nat)
    (replacing : Option BasicOp) (i : BasicOperation) :
    (i.fields ctx line).2.substitute ctx line position (depth + 1) replacing =
      i.substitute ctx line position (depth + 1) replacing := by
  unfold substitute
  rw [fields_again]

theorem fields_of_substitute (ctx : Context) (line : Line) (position : Int) (depth : Nat)
    (replacing : Option BasicOp) (i : BasicOperation) :
    (i.substitute ctx line position depth replacing).2.fields ctx line = i.fields ctx line := by
  cases depth with
  | zero => rfl
  | succ depth => rw [substitute_left, fields_again]

/-- How many replacements in turn an instruction can have that stands for `replacing`. -/
def links (replacing : Option BasicOp) : BasicOp → Nat
  | .set => 2
  | .add => if replacing = some .sub then 0 else 1
  | .sub => if replacing = some .add then 0 else 1
  | .mul | .div | .mod => 1
  | _ => 0

section

variable {ctx : Context} {line : Line} {position : Int} {depth : Nat}
  {replacing : Option BasicOp} {replaced : BasicOp} {i sub s : BasicOperation}
  {codeA codeB : UInt16}

theorem replacement_ok (given : i.replacement? position replacing codeA codeB = some sub) :
    ∃ op b, sub = ⟨op, i.a.fresh, b⟩ ∧
      ((codeB = Field.nextWord ∧ ∃ raw tree last latched,
          i.b = .expression raw tree last latched ∧
          forLongLiteral position replacing i.op codeA raw tree = some (op, b)) ∨
        ∃ v k, i.b.constant? codeB = some v ∧ exponent? v = some k ∧
          forPower i.op k = some (op, b)) := by
  obtain ⟨⟨op, b⟩, rule, rfl⟩ := Option.map_eq_some_iff.1 given
  refine ⟨op, b, rfl, ?_⟩
  rcases Option.or_eq_some_iff.1 (Option.orElse_eq_or.symm.trans rule) with
    literals | ⟨_, powers⟩
  · split at literals
    · rename_i long
      cases second : i.b with
      | fixed => simp [second] at literals
      | expression raw tree last latched =>
        simp only [second] at literals
        exact .inl ⟨eq_of_beq long, raw, tree, last, latched, rfl, literals⟩
    · cases literals
  · obtain ⟨k, power, rule⟩ := Option.bind_eq_some_iff.1 powers
    obtain ⟨v, constant, power⟩ := Option.bind_eq_some_iff.1 power
    exact .inr ⟨v, k, constant, power, rule⟩

theorem links_of_replacement
    (given : i.replacement? position replacing codeA codeB = some sub) :
    links (some i.op) sub.op < links replacing i.op := by
  obtain ⟨op', b, rfl, ⟨_, raw, tree, _, _, _, rule⟩ | ⟨_, k, _, _, rule⟩⟩ := replacement_ok given
  · unfold forLongLiteral at rule
    cases op : i.op <;> simp only [op] at rule <;> grind [links]
  · unfold forPower at rule
    cases op : i.op <;> simp only [op] at rule <;> grind [links]

theorem substitute_succ (enough : links replacing i.op < depth) :
    i.substitute ctx line position (depth + 1) replacing =
      i.substitute ctx line position depth replacing := by
  induction depth generalizing i replacing with
  | zero => omega
  | succ depth ih =>
    have op := i.op_fields ctx line
    rw [substitute, substitute]
    rcases fields : i.fields ctx line with ⟨f | ⟨codeA, codeB⟩, left⟩
    · rfl
    rw [fields] at op
    cases given : left.replacement? position replacing codeA codeB with
    | none => simp only [given]
    | some sub =>
      have fewer := links_of_replacement given
      rw [op] at fewer
      have same := @ih (some left.op) sub (by rw [op]; omega)
      simp only [given, same]

/-- No chain of replacements is longer than it may be. -/
theorem substitute_chainLength (enough : chainLength ≤ depth) :
    i.substitute ctx line position depth replacing =
      i.substitute ctx line position chainLength replacing := by
  have few : links replacing i.op < chainLength := by
    cases i.op <;> simp only [links, chainLength] <;> grind
  induction enough with
  | refl => rfl
  | step enough ih => rw [substitute_succ (Nat.lt_of_lt_of_le few enough), ih]

/-- A substitution that gives something starts with a rule, and what the rule gives is used as it
stands or replaced in turn. It takes a single word. -/
theorem substitute_ok
    (chosen : (i.substitute ctx line position depth replacing).1 = .ok (some (replaced, s))) :
    ∃ d codeA codeB left sub subA subB, depth = d + 1 ∧
      i.fields ctx line = (.ok (codeA, codeB), left) ∧
      left.replacement? position replacing codeA codeB = some sub ∧
      ((sub.substitute ctx line position d (some left.op)).1 = .ok none ∧ replaced = left.op ∧
          sub.fields ctx line = (.ok (subA, subB), s) ∨
        (sub.substitute ctx line position d (some left.op)).1 = .ok (some (replaced, s))) ∧
      s.fields ctx line = (.ok (subA, subB), s) ∧ isShort subA subB = true := by
  induction depth generalizing i replacing replaced s with
  | zero => cases chosen
  | succ depth ih =>
    unfold substitute at chosen
    rcases fields : i.fields ctx line with ⟨f | ⟨codeA, codeB⟩, left⟩
    · simp [fields] at chosen
    simp only [fields] at chosen
    cases given : left.replacement? position replacing codeA codeB with
    | none => simp [given] at chosen
    | some sub =>
      simp only [given] at chosen
      have kept := sub.fields_of_substitute ctx line position depth (some left.op)
      rcases inner : sub.substitute ctx line position depth (some left.op) with ⟨f | next, sub'⟩
      · simp [inner] at chosen
      simp only [inner] at chosen kept
      rcases last : (next.getD (left.op, sub')).2.fields ctx line with ⟨f | ⟨subA, subB⟩, sub''⟩
      · simp [last] at chosen
      have again := fields_again ctx line (next.getD (left.op, sub')).2
      simp only [last, Except.ok.injEq] at chosen again
      split at chosen
      · rename_i short
        simp only [Option.some.injEq, Prod.mk.injEq] at chosen
        obtain ⟨rfl, rfl⟩ := chosen
        refine ⟨depth, codeA, codeB, left, sub, subA, subB, rfl, rfl, given, ?_, again, short⟩
        cases next with
        | none => exact .inl ⟨by rw [inner], rfl, kept.symm.trans last⟩
        | some chosen' =>
          -- What was chosen further on is not changed by looking at it again.
          obtain ⟨r, s'⟩ := chosen'
          obtain ⟨_, _, _, _, _, _, _, _, _, _, _, same, _⟩ := ih (by rw [inner])
          cases same.symm.trans last
          exact .inr (by rw [inner]; rfl)
      · cases chosen

theorem forPower_of_replacement
    (given : i.replacement? position replacing codeA codeB = some sub) (k : Nat) :
    forPower sub.op k = none := by
  obtain ⟨op', b, rfl, ⟨_, raw, tree, _, _, _, rule⟩ | ⟨_, k', _, _, rule⟩⟩ := replacement_ok given
  · unfold forLongLiteral at rule
    cases op : i.op <;> simp only [op] at rule <;> grind [forPower]
  · unfold forPower at rule
    cases op : i.op <;> simp only [op] at rule <;> grind [forPower]

theorem forPower_of_substitute
    (chosen : (i.substitute ctx line position depth replacing).1 = .ok (some (replaced, s)))
    (k : Nat) : forPower s.op k = none := by
  induction depth generalizing i replacing replaced with
  | zero => cases chosen
  | succ depth ih =>
    obtain ⟨d, _, _, left, sub, _, _, same, _, given, last | next, _⟩ := substitute_ok chosen
    · have op := sub.op_fields ctx line
      rw [last.2.2] at op
      rw [op]
      exact forPower_of_replacement given k
    · cases same
      exact ih next

/-- What was chosen is not replaced again, whatever it is said to stand for: it has no long
literal, and it does not multiply or divide. -/
theorem substitute_chosen
    (chosen : (i.substitute ctx line position depth replacing).1 = .ok (some (replaced, s)))
    (depth' : Nat) (replacing' : Option BasicOp) :
    s.substitute ctx line position depth' replacing' = (.ok none, s) := by
  cases depth' with
  | zero => rfl
  | succ depth' =>
    obtain ⟨_, _, _, _, _, subA, subB, _, _, _, _, fields, short⟩ := substitute_ok chosen
    have noPower := forPower_of_substitute chosen
    have noLiteral : (subB == Field.nextWord) = false := by
      rw [beq_eq_false_iff_ne]
      rintro rfl
      simp [isShort, Field.hasNextWord] at short
    have none' : s.replacement? position replacing' subA subB = none := by
      simp [replacement?, noLiteral, noPower]
    simp only [substitute, fields, none']

theorem encodeFor_chosen
    (chosen : (i.substitute ctx line position depth replacing).1 = .ok (some (replaced, s)))
    (depth' : Nat) (replaced' : BasicOp) :
    s.encodeFor ctx line position depth' replaced' = s.encode ctx line := by
  cases depth' with
  | zero => rfl
  | succ depth' => simp only [encodeFor, substitute_chosen chosen]

end

end BasicOperation

namespace SpecialOperation

theorem encode_again (ctx : Context) (line : Line) (i : SpecialOperation) :
    (i.encode ctx line).2.encode ctx line = i.encode ctx line := by
  have again := i.a.field_again ctx line
  unfold encode
  rcases fieldA : i.a.field ctx line with ⟨_ | code, a⟩
  · simp only [fieldA] at again ⊢
    simp only [again]
  · simp only [fieldA] at again ⊢
    simp only [again]

def fresh (i : SpecialOperation) : SpecialOperation := ⟨i.op, i.a.fresh⟩

theorem fresh_encode (ctx : Context) (line : Line) (i : SpecialOperation) :
    (i.encode ctx line).2.fresh = i.fresh := by
  have kept := i.a.fresh_field ctx line
  unfold encode
  rcases fieldA : i.a.field ctx line with ⟨_ | code, a⟩ <;>
  · rw [fieldA] at kept
    simp only [fresh, kept]

end SpecialOperation

namespace Instruction

section

variable (ctx : Context) (line : Line) (position : Int) (written : BasicOperation)
  (used : Option BasicOperation)

theorem emitBasic_plain : emitBasic false ctx line position written used =
    ((written.encode ctx line).1, basic (written.fields ctx line).2 used, []) := by
  simp only [emitBasic, Bool.not_false, ↓reduceIte, BasicOperation.encode_eq]

theorem emitBasic_optimized : emitBasic true ctx line position written used =
    match (written.substitute ctx line position BasicOperation.chainLength none).1 with
    | .error f => (.error f, basic (written.fields ctx line).2 used, [])
    | .ok none => ((written.encode ctx line).1, basic (written.fields ctx line).2 none, [])
    | .ok (some (_, sub)) =>
      ((sub.encode ctx line).1, basic (written.fields ctx line).2 (some (sub.encode ctx line).2),
        (sub.encode ctx line).1.toOption.toList.map fun words =>
          .substituted line.file line.number sub.text (written.fields ctx line).2.text words) := by
  have left := written.substitute_left ctx line position 2 none
  have kept := written.encode_again ctx line
  simp only [emitBasic, Bool.not_true, Bool.false_eq_true, ↓reduceIte, BasicOperation.chainLength]
  rcases substituted : written.substitute ctx line position 3 none with ⟨_ | _ | ⟨r, sub⟩, w⟩
  · rw [substituted] at left
    subst left
    rfl
  · rw [substituted] at left
    subst left
    simp only [kept]
    rw [BasicOperation.encode_eq]
  · rw [substituted] at left
    subst left
    have again := BasicOperation.encodeFor_chosen (congrArg Prod.fst substituted)
    simp only [again]
    rcases sub.encode ctx line with ⟨_ | words, s⟩ <;> rfl

end

theorem emitBasic_again (optimize : Bool) (ctx : Context) (line : Line) (position : Int)
    (written : BasicOperation) (used : Option BasicOperation) :
    (emitBasic optimize ctx line position written used).2.1.emit optimize ctx line position =
      emitBasic optimize ctx line position written used := by
  have encoded := written.encode_again ctx line
  have fields := written.fields_again ctx line
  have again := written.substitute_again ctx line position 2 none
  cases optimize with
  | false => simp only [emitBasic_plain, emit, encoded, fields]
  | true =>
    rw [emitBasic_optimized]
    -- A replacement is derived anew from the operands, so its own state does not count.
    rcases substituted : (written.substitute ctx line position BasicOperation.chainLength none).1
      with f | _ | sub <;>
    simp only [emit, emitBasic_optimized, BasicOperation.chainLength, again, fields, encoded] <;>
    simp only [BasicOperation.chainLength] at substituted <;>
    simp only [substituted]

theorem emit_again (optimize : Bool) (ctx : Context) (line : Line) (position : Int)
    (i : Instruction) :
    (i.emit optimize ctx line position).2.1.emit optimize ctx line position =
      i.emit optimize ctx line position := by
  cases i with
  | basic written used => exact emitBasic_again optimize ctx line position written used
  | special written => simp only [emit, written.encode_again ctx line]

/-- The instruction as no pass has seen it. -/
def fresh : Instruction → Instruction
  | basic written _ => basic written.fresh none
  | special written => special written.fresh

theorem fresh_emit (optimize : Bool) (ctx : Context) (line : Line) (position : Int)
    (i : Instruction) : (i.emit optimize ctx line position).2.1.fresh = i.fresh := by
  cases i with
  | special written => simp only [emit, fresh, written.fresh_encode ctx line]
  | basic written used =>
    have kept := written.fresh_fields ctx line
    cases optimize with
    | false => simp only [emit, emitBasic_plain, fresh, kept]
    | true =>
      rw [emit, emitBasic_optimized]
      rcases (written.substitute ctx line position BasicOperation.chainLength none).1
        with f | _ | sub <;> simp only [fresh, kept]

end Instruction

namespace DataItem

theorem emit_again (ctx : Context) (line : Line) (item : DataItem) :
    (item.emit ctx line).2.emit ctx line = item.emit ctx line := by
  cases item with
  | string words isPacked raw => rfl
  | value tree last raw =>
    cases evaluated : ctx.evaluate line tree with
    | error f => simp only [emit, evaluated]
    | ok tree' => cases tree' <;> cases final : ctx.finalize <;> simp [emit, evaluated, final]

theorem emitAll_again (ctx : Context) (line : Line) (items : List DataItem) :
    emitAll ctx line (emitAll ctx line items).2 = emitAll ctx line items := by
  induction items with
  | nil => rfl
  | cons item rest ih =>
    have again := item.emit_again ctx line
    rcases first : item.emit ctx line with ⟨_ | cells, left⟩
    · rw [first] at again
      simp only [emitAll, first, again]
    · rw [first] at again
      rcases later : emitAll ctx line rest with ⟨_ | more, rest'⟩ <;>
        · rw [later] at ih
          simp only [emitAll, first, again, later, ih]

def fresh : DataItem → DataItem
  | string words isPacked raw => string words isPacked raw
  | value tree _ raw => value tree tree raw

theorem fresh_emit (ctx : Context) (line : Line) (item : DataItem) :
    (item.emit ctx line).2.fresh = item.fresh := by
  cases item with
  | string words isPacked raw => rfl
  | value tree last raw =>
    cases evaluated : ctx.evaluate line tree with
    | error f => simp only [emit, evaluated]
    | ok tree' =>
      cases tree' <;> cases final : ctx.finalize <;> simp [emit, evaluated, final, fresh]

theorem fresh_emitAll (ctx : Context) (line : Line) (items : List DataItem) :
    (emitAll ctx line items).2.map fresh = items.map fresh := by
  induction items with
  | nil => rfl
  | cons item rest ih =>
    have kept := item.fresh_emit ctx line
    rcases first : item.emit ctx line with ⟨_ | cells, left⟩
    · rw [first] at kept
      simp only [emitAll, first, List.map_cons, kept]
    · rw [first] at kept
      rcases later : emitAll ctx line rest with ⟨_ | more, rest'⟩ <;>
        · rw [later] at ih
          simp only [emitAll, first, later, List.map_cons, kept, ih]

end DataItem

@[simp]
theorem Data.gathered_getD (words : List UInt16) : (gathered words).getD [] = words := by
  cases words <;> rfl

theorem Data.emit_ok {ctx : Context} {line : Line} {d : Data} {given : Option (List UInt16)}
    (emitted : (d.emit ctx line).1 = .ok given) :
    ∃ cells, (DataItem.emitAll ctx line d.items).1 = .ok cells ∧
      given = some (words d.isBytes cells) := by
  unfold emit at emitted
  rcases items : DataItem.emitAll ctx line d.items with ⟨f | cells, left⟩
  · simp [items] at emitted
  · simp only [items, gathered_getD, Except.ok.injEq] at emitted
    exact ⟨cells, rfl, emitted.symm⟩

theorem Data.emit_again (ctx : Context) (line : Line) (d : Data) :
    (d.emit ctx line).2.emit ctx line = d.emit ctx line := by
  have again := DataItem.emitAll_again ctx line d.items
  unfold emit
  rcases items : DataItem.emitAll ctx line d.items with ⟨_ | cells, left⟩ <;>
    · rw [items] at again
      simp only [again]

theorem Padding.copies_ok {n : Nat} {word : UInt16} {given : Option (List UInt16)}
    (made : copies n word = .ok given) : n ≤ maxWords ∧ given = some (List.replicate n word) := by
  unfold copies at made
  split at made
  · cases made
  · rename_i room
    cases made
    exact ⟨by omega, rfl⟩

theorem Fill.emit_ok {ctx : Context} {line : Line} {old : Option Nat} {f : Fill}
    {given : Option (List UInt16)} (emitted : (f.emit ctx line old).1 = .ok given) :
    ∃ n last word, evaluate ctx line f.length = .ok (n, last) ∧ 0 ≤ n ∧
      given = some (List.replicate (settle ctx line old n.toInt.toNat).1 word) ∧
      ∀ tree, f.value = some tree →
        ∃ v last, evaluate ctx line tree = .ok (v, last) ∧ word = lowWord v := by
  unfold emit at emitted
  split at emitted
  · cases emitted
  · rename_i n last evaluated
    dsimp only at emitted
    split at emitted
    · cases emitted
    · rename_i negative
      split at emitted
      · rename_i unvalued
        obtain ⟨_, copied⟩ := Padding.copies_ok emitted
        refine ⟨n, last, 0, evaluated, Int64.not_lt.1 negative, copied, ?_⟩
        intro tree valued
        rw [unvalued] at valued
        cases valued
      · rename_i tree valued
        split at emitted
        · cases emitted
        · rename_i v last' known
          obtain ⟨_, copied⟩ := Padding.copies_ok emitted
          refine ⟨n, last, lowWord v, evaluated, Int64.not_lt.1 negative, copied, ?_⟩
          intro tree' valued'
          cases valued.symm.trans valued'
          exact ⟨v, last', known, rfl⟩

theorem Align.emit_ok {ctx : Context} {line : Line} {position : Int} {old : Option Nat} {a : Align}
    {given : Option (List UInt16)} (final : ctx.finalize = true)
    (emitted : (a.emit ctx line position old).1 = .ok given) :
    ∃ n g, ctx.evaluate line a.boundary = .ok (.number n g) ∧ 0 < n.toInt ∧
      given = some (List.replicate (size ctx old n.toInt.toNat position) 0) := by
  unfold emit at emitted
  split at emitted
  · cases emitted
  · rename_i e evaluated
    cases e with
    | number n g =>
      dsimp only at emitted
      split at emitted
      · cases emitted
      · rename_i above
        obtain ⟨_, copied⟩ := Padding.copies_ok emitted
        exact ⟨n, g, evaluated, Int64.lt_iff_toInt_lt.1 (Int64.not_le.1 above), copied⟩
    | _ => simp [final] at emitted

theorem Fill.emit_again (ctx : Context) (line : Line) (old : Option Nat) (f : Fill) :
    (f.emit ctx line old).2.1.emit ctx line old = f.emit ctx line old := by
  unfold emit
  rcases length : evaluate ctx line f.length with e | ⟨n, tree⟩
  · simp only [length]
  · by_cases negative : n < 0
    · simp only [length, negative, ↓reduceIte]
    · cases valued : f.value with
      | none => simp only [length, negative, ↓reduceIte]
      | some tree' =>
        rcases value : evaluate ctx line tree' with e | ⟨v, tree''⟩ <;>
          simp only [length, negative, ↓reduceIte, value]

theorem Align.emit_again (ctx : Context) (line : Line) (position : Int) (old : Option Nat)
    (a : Align) : (a.emit ctx line position old).2.emit ctx line position old =
      a.emit ctx line position old := by
  cases evaluated : ctx.evaluate line a.boundary with
  | error f => simp only [emit, evaluated]
  | ok tree =>
    cases tree with
    | number n g => by_cases positive : n ≤ 0 <;> simp only [emit, evaluated, positive, ↓reduceIte]
    | _ => cases final : ctx.finalize <;> simp [emit, evaluated, final]

namespace Statement

@[simp]
theorem stored_some (outcome : Except Fault (List UInt16)) :
    stored (outcome.map some) = outcome := by
  cases outcome <;> rfl

theorem stored_ok {outcome : Except Fault (Option (List UInt16))} {words : List UInt16}
    (kept : stored outcome = .ok words) : ∃ given, outcome = .ok given ∧ words = given.getD [] := by
  cases outcome with
  | error f => cases kept
  | ok given =>
    cases kept
    exact ⟨given, rfl, rfl⟩

theorem outcome_instruction (optimize : Bool) (ctx : Context) (position : Int) (old : Option Nat)
    (line : Line) (i : Instruction) :
    (emit optimize ctx position old ⟨line, .instruction i⟩).outcome =
      (i.emit optimize ctx line position).1 :=
  stored_some _

end Statement

namespace Body

def fresh : Body → Body
  | instruction i => instruction i.fresh
  | data d => data { d with items := d.items.map DataItem.fresh }
  | fill f => fill { f with last := [] }
  | align a => align { a with last := a.boundary }

end Body

/-- The statement as no pass has seen it. -/
def Statement.fresh (s : Statement) : Statement := { s with body := s.body.fresh }

theorem Data.fresh_emit (ctx : Context) (line : Line) (d : Data) :
    (Body.data (d.emit ctx line).2).fresh = (Body.data d).fresh := by
  have kept := DataItem.fresh_emitAll ctx line d.items
  unfold emit
  rcases items : DataItem.emitAll ctx line d.items with ⟨_ | cells, left⟩ <;>
  · rw [items] at kept
    simp only [Body.fresh, kept]

theorem Fill.fresh_emit (ctx : Context) (line : Line) (old : Option Nat) (f : Fill) :
    (Body.fill (f.emit ctx line old).2.1).fresh = (Body.fill f).fresh := by
  unfold emit
  rcases evaluate ctx line f.length with e | ⟨n, tree⟩
  · rfl
  · by_cases negative : n < 0
    · simp only [negative, ↓reduceIte, Body.fresh]
    · cases valued : f.value with
      | none => simp only [negative, ↓reduceIte, Body.fresh, valued]
      | some tree' =>
        cases value : evaluate ctx line tree' <;>
          simp only [negative, ↓reduceIte, value, Body.fresh, valued]

theorem Align.fresh_emit (ctx : Context) (line : Line) (position : Int) (old : Option Nat)
    (a : Align) : (Body.align (a.emit ctx line position old).2).fresh = (Body.align a).fresh := by
  cases evaluated : ctx.evaluate line a.boundary with
  | error f => simp only [emit, evaluated]
  | ok tree =>
    cases tree with
    | number n g =>
      by_cases positive : n ≤ 0 <;> simp only [emit, evaluated, positive, ↓reduceIte, Body.fresh]
    | _ => cases final : ctx.finalize <;> simp [emit, evaluated, final, Body.fresh]

theorem Statement.fresh_emit (optimize : Bool) (ctx : Context) (position : Int) (old : Option Nat)
    (s : Statement) : (s.emit optimize ctx position old).statement.fresh = s.fresh := by
  obtain ⟨line, body⟩ := s
  cases body with
  | instruction i =>
    simp only [emit, fresh, Body.fresh, i.fresh_emit optimize ctx line position]
  | data d => simp only [emit, fresh, d.fresh_emit ctx line]
  | fill f => simp only [emit, fresh, f.fresh_emit ctx line old]
  | align a => simp only [emit, fresh, a.fresh_emit ctx line position old]

theorem Statement.emit_again (optimize : Bool) (ctx : Context) (position : Int) (old : Option Nat)
    (s : Statement) : (s.emit optimize ctx position old).statement.emit optimize ctx position old =
      s.emit optimize ctx position old := by
  obtain ⟨line, body⟩ := s
  cases body with
  | instruction i => simp only [emit, i.emit_again optimize ctx line position]
  | data d => simp only [emit, d.emit_again ctx line]
  | fill f => simp only [emit, f.emit_again ctx line old]
  | align a => simp only [emit, a.emit_again ctx line position old]

end WordAsm
