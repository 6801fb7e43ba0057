import WordAsm.Proofs.Completion
import WordAsm.Proofs.Latches

/-!
Emission with the optimizer and without it. A replacement keeps the first operand and has a literal
that was computed from the second one, so it has no fault of its own, and it is used only where the
instruction itself can be encoded: a literal that fits into its field is known, and so is what it
was computed from.
-/
namespace WordAsm

namespace Operand

section

variable {ctx : Context} {line : Line} {o o' left left' : Operand} {code code' v : UInt16}

theorem fieldOf_fault {raw : String} {e : Expr} {latched latched' : Bool} {f : Fault}
    (failed : fieldOf raw e latched' = .error f) : fieldOf raw e latched = .error f := by
  unfold fieldOf at failed ⊢
  split
  · rename_i bracketed
    rwa [if_pos bracketed] at failed
  · rename_i plain
    rw [if_neg plain] at failed
    cases first : firstRegister? e with
    | some name => simpa only [first] using failed
    | none => simp [first] at failed

theorem field_fault (same : o'.fresh = o.fresh) {f : Fault}
    (failed : (o'.field ctx line).1 = .error f) : (o.field ctx line).1 = .error f := by
  cases o with
  | fixed code raw =>
    cases o' with
    | fixed code' raw' => cases failed
    | expression => cases same
  | expression raw tree last latched =>
    cases o' with
    | fixed => cases same
    | expression raw' tree' last' latched' =>
      cases same
      simp only [field] at failed ⊢
      cases evaluated : ctx.evaluate line tree with
      | error f' => simpa only [evaluated] using failed
      | ok e =>
        simp only [evaluated] at failed ⊢
        cases known : fieldOf raw e latched' with
        | ok code => simp [known] at failed
        | error f' =>
          simp only [known] at failed
          cases failed
          rw [fieldOf_fault known]

theorem extra_number (raw : String) (tree : Expr) (n : Int64) (g latched latched' finalize : Bool) :
    ∃ words, (expression raw tree (.number n g) latched).extra
      (literalField (.number n g) latched') finalize = .ok words := by
  rcases literalField_cases (.number n g) latched' with long | ⟨_, alone⟩
  · rw [long]
    exact ⟨[lowWord n], rfl⟩
  · exact ⟨[], extra_single _ alone finalize⟩

theorem extra_of_constant (classified : o.field ctx line = (.ok code, left))
    (constant : left.constant? code = some v) (finalize : Bool) :
    ∃ words, left.extra code finalize = .ok words := by
  cases o with
  | fixed code' raw =>
    cases classified
    exact ⟨[], rfl⟩
  | expression raw tree last latched =>
    obtain ⟨e, latched', _, known, rfl⟩ := field_expression classified
    obtain ⟨rfl, n, g, rfl, _⟩ := constant_of_literalField known constant
    exact extra_number raw tree n g latched' latched finalize

theorem extra_of_single (classified : o.field ctx line = (.ok code, left))
    (same : o'.fresh = o.fresh) (classified' : o'.field ctx line = (.ok code', left'))
    (alone : Field.hasNextWord code' = false) (finalize : Bool) :
    ∃ words, left.extra code finalize = .ok words := by
  cases o with
  | fixed code₀ raw =>
    cases classified
    exact ⟨[], rfl⟩
  | expression raw tree last latched =>
    cases o' with
    | fixed => cases same
    | expression raw' tree' last' latched' =>
      cases same
      obtain ⟨e, latch, evaluated, known, rfl⟩ := field_expression classified
      obtain ⟨e', _, evaluated', known', _⟩ := field_expression classified'
      rw [evaluated] at evaluated'
      cases evaluated'
      rcases fieldOf_relatched known known' with rfl | ⟨rfl, rfl⟩
      · exact ⟨[], extra_single _ alone finalize⟩
      · cases e with
        | number n g => exact extra_number raw tree n g latch latched finalize
        | _ => cases alone

theorem amounts_of_computed (computed : o.Computed)
    (classified : o.field ctx line = (.ok code, left))
    (constant : left.constant? code = some v) : o.Amounts ctx line v := by
  obtain ⟨raw, tree, last, latched, rfl, _, _⟩ := computed
  obtain ⟨e, latched', evaluated, known, rfl⟩ := field_expression classified
  obtain ⟨_, n, g, rfl, rfl⟩ := constant_of_literalField known constant
  exact ⟨raw, tree, last, latched, n, rfl, ⟨g, Context.evaluate_ok evaluated⟩, rfl⟩

end

end Operand

namespace BasicOperation

section

variable {ctx : Context} {line : Line} {position : Int} {i sub : BasicOperation}

theorem constant_of_substitute {depth : Nat} {replacing : Option BasicOp} {replaced : BasicOp}
    (chosen : (i.substitute ctx line position depth replacing).1 = .ok (some (replaced, sub))) :
    ∃ codeA codeB left v, i.fields ctx line = (.ok (codeA, codeB), left) ∧
      left.b.constant? codeB = some v := by
  -- The last literal of the chain is known, and each rule computes its literal from the one before.
  induction depth generalizing i replacing replaced with
  | zero => cases chosen
  | succ depth ih =>
    obtain ⟨_, codeA, codeB, left, next, _, _, same, fields, given, rest, _, short⟩ :=
      substitute_ok chosen
    cases same
    obtain ⟨_, _, fieldB⟩ := fields_ok fields
    have rule := replaced_of_rules fieldB given
    suffices amounts : ∃ v, next.b.Amounts ctx line v by
      obtain ⟨v', amounts⟩ := amounts
      obtain ⟨v, constant, _⟩ := rule.rewrite v' amounts
      exact ⟨codeA, codeB, left, v, fields, constant⟩
    rcases rest with ⟨_, _, last⟩ | further
    · simp only [isShort, Bool.and_eq_true, Bool.not_eq_true'] at short
      obtain ⟨_, _, fieldB'⟩ := fields_ok last
      obtain ⟨v, amounts, _⟩ := Operand.amounts_of_short rule.computed fieldB' short.2
      exact ⟨v, amounts⟩
    · obtain ⟨_, _, _, v, fields', constant⟩ := ih further
      obtain ⟨_, _, fieldB'⟩ := fields_ok fields'
      exact ⟨v, Operand.amounts_of_computed rule.computed fieldB' constant⟩

theorem encode_of_extra {codeA codeB : UInt16} {left : BasicOperation} {extraA extraB : List UInt16}
    (fields : i.fields ctx line = (.ok (codeA, codeB), left))
    (givenA : left.a.extra codeA ctx.finalize = .ok extraA)
    (givenB : left.b.extra codeB ctx.finalize = .ok extraB) :
    (i.encode ctx line).1 = .ok (Word.encode left.op.opcode codeA codeB :: (extraA ++ extraB)) := by
  simp only [encode, fields, assemble, givenA, givenB]
  rfl

theorem encode_of_substitute {depth : Nat} {replacing : Option BasicOp} {replaced : BasicOp}
    (chosen : (i.substitute ctx line position depth replacing).1 = .ok (some (replaced, sub))) :
    (∃ w rest, (i.encode ctx line).1 = .ok (w :: rest)) ∧
      ∃ w, (sub.encode ctx line).1 = .ok [w] := by
  have derived := derived_of_substitute chosen
  obtain ⟨_, _, _, _, _, subA, subB, _, _, _, _, subFields, short⟩ := substitute_ok chosen
  obtain ⟨codeA, codeB, left, v, fields, constant⟩ := constant_of_substitute chosen
  obtain ⟨_, fieldA, fieldB⟩ := fields_ok fields
  obtain ⟨_, subFieldA, _⟩ := fields_ok subFields
  refine ⟨?_, _, encode_of_short subFields short⟩
  simp only [isShort, Bool.and_eq_true, Bool.not_eq_true'] at short
  obtain ⟨extraA, givenA⟩ :=
    Operand.extra_of_single fieldA derived.first subFieldA short.1 ctx.finalize
  obtain ⟨extraB, givenB⟩ := Operand.extra_of_constant fieldB constant ctx.finalize
  exact ⟨_, _, encode_of_extra fields givenA givenB⟩

theorem substitute_fault {depth : Nat} {replacing : Option BasicOp} {f : Fault}
    (failed : (i.substitute ctx line position depth replacing).1 = .error f) :
    (i.fields ctx line).1 = .error f := by
  refine @failsWith_substitute ctx line position i (fun f => (i.fields ctx line).1 = .error f) ?_
    (fun _ => id) depth replacing f failed
  intro a same f failed
  have first := Operand.field_fault same failed
  unfold fields
  rcases field : i.a.field ctx line with ⟨f' | code, left⟩
  · rw [field] at first
    cases first
    rfl
  · rw [field] at first
    cases first

end

end BasicOperation

/-- What optimizing may make of the words of a line, or of its fault. -/
inductive Shortened : Except Fault (List UInt16) → Except Fault (List UInt16) → Prop
  | fault (f : Fault) : Shortened (.error f) (.error f)
  | same (words : List UInt16) : Shortened (.ok words) (.ok words)
  | single (w : UInt16) (rest : List UInt16) (w' : UInt16) : Shortened (.ok (w :: rest)) (.ok [w'])

theorem Shortened.refl (x : Except Fault (List UInt16)) : Shortened x x := by
  cases x with
  | error f => exact .fault f
  | ok words => exact .same words

/-- The optimizer changes neither whether an instruction can be emitted nor its latches: it leaves
the fault or the words as they are, or gives a single word. -/
theorem optimized_emission_agrees (i : Instruction) (ctx : Context) (line : Line) (position : Int) :
    Shortened (i.emit false ctx line position).1 (i.emit true ctx line position).1 ∧
      (i.emit true ctx line position).2.1.operands.map Operand.isLatched =
        (i.emit false ctx line position).2.1.operands.map Operand.isLatched := by
  refine ⟨?_, by rw [Instruction.emit_operands]⟩
  cases i with
  | special written => exact .refl _
  | basic written used =>
    rw [Instruction.emit, Instruction.emit, Instruction.emitBasic_plain,
      Instruction.emitBasic_optimized]
    split
    · rename_i f failed
      have plain : (written.encode ctx line).1 = .error f := by
        rw [BasicOperation.encode_eq, BasicOperation.substitute_fault failed]
        rfl
      rw [plain]
      exact .fault f
    · exact .refl _
    · rename_i replaced sub substituted
      obtain ⟨⟨w, rest, plain⟩, w', single⟩ := BasicOperation.encode_of_substitute substituted
      rw [plain, single]
      exact .single w rest w'

end WordAsm
