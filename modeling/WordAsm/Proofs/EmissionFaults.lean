import WordAsm.Proofs.LabelValues

/-!
Why a statement cannot be emitted: an undefined label, an operand or a register form that is not
understood, an expression that is no literal, a division by zero, or more padding than there can be
room for. No other fault arises while statements are emitted.
-/
namespace WordAsm

namespace Fault

def isEmitted : Fault → Bool
  | undefinedLabel _ | operand _ | registerForm _ | notLiteral _ | divisionByZero
  | breakdown .allocation => true
  | _ => false

end Fault

/-- A computation fails with allowed faults at most. -/
def FailsWith (allowed : Fault → Prop) (x : Except Fault α) : Prop :=
  ∀ f, x = .error f → allowed f

section

variable {allowed : Fault → Prop}

theorem failsWith_ok (a : α) : FailsWith allowed (.ok a : Except Fault α) := by
  intro f failed
  cases failed

theorem FailsWith.error {x : Except Fault α} {f : Fault} (fails : FailsWith allowed x)
    (failed : x = .error f) : FailsWith allowed (.error f : Except Fault β) := by
  intro f' same
  cases same
  exact fails f failed

theorem failsWith_bind {x : Except Fault α} {g : α → Except Fault β} (first : FailsWith allowed x)
    (second : ∀ a, FailsWith allowed (g a)) : FailsWith allowed (x >>= g) := by
  cases x with
  | error f =>
    intro f' failed
    cases failed
    exact first f rfl
  | ok a => exact second a

end

/-- Every fault of a computation is one that emission can give. -/
abbrev Emits (x : Except Fault α) : Prop := FailsWith (fun f => f.isEmitted = true) x

theorem Expr.simplify_error {resolver : Resolver ε} {e : Expr} {f : EvalError ε}
    (failed : e.simplify resolver = .error f) :
    f = .divisionByZero ∨ ∃ reason, f = .refused reason ∧
      ((∃ s, resolver.symbol s = .error reason) ∨
        ∃ fn argument, resolver.call fn argument = .error reason) := by
  induction e with
  | leaf text g =>
    simp only [simplify, askSymbol] at failed
    split at failed
    · cases failed
    · cases asked : resolver.symbol text with
      | ok v => cases v <;> simp [asked, answer, bind, Except.bind] at failed <;> cases failed
      | error reason =>
        rw [asked] at failed
        cases failed
        exact .inr ⟨reason, rfl, .inl ⟨text, asked⟩⟩
  | number n g => cases failed
  | unary op e g ih =>
    cases inner : e.simplify resolver with
    | error f' =>
      rw [simplify, inner] at failed
      cases failed
      exact ih inner
    | ok e' =>
      rw [simplify, inner] at failed
      cases failed
  | binary op l r g ihl ihr =>
    cases asked : askCall resolver op l r with
    | error f' =>
      rw [simplify, asked] at failed
      cases failed
      unfold askCall at asked
      split at asked
      · rename_i fn _
        cases called : resolver.call fn r with
        | ok v => simp [called, answer] at asked
        | error reason =>
          rw [called] at asked
          cases asked
          exact .inr ⟨reason, rfl, .inr ⟨fn, r, called⟩⟩
      · cases asked
    | ok v =>
      cases v with
      | some v =>
        rw [simplify, asked] at failed
        cases failed
      | none =>
        cases left : l.simplify resolver with
        | error f' =>
          rw [simplify, asked] at failed
          simp only [left] at failed
          cases failed
          exact ihl left
        | ok l' =>
          cases right : r.simplify resolver with
          | error f' =>
            rw [simplify, asked] at failed
            simp only [left, right] at failed
            cases failed
            exact ihr right
          | ok r' =>
            rw [simplify, asked] at failed
            simp only [left, right] at failed
            replace failed : foldBinary op l' r' g = .error f := failed
            unfold foldBinary at failed
            split at failed
            · split at failed
              · rename_i zero
                cases failed
                unfold binaryValue at zero
                split at zero <;> (try split at zero) <;> cases zero <;> exact .inl rfl
              · cases failed
              · cases failed
            · cases failed
  | absent => cases failed

theorem Context.emits_evaluate (ctx : Context) (line : Line) (tree : Expr) :
    Emits (ctx.evaluate line tree) := by
  intro f failed
  unfold evaluate at failed
  split at failed
  · cases failed
  · rename_i e simplified
    cases failed
    rcases Expr.simplify_error simplified with rfl | ⟨reason, rfl, ⟨s, asked⟩ | ⟨fn, a, asked⟩⟩
    · rfl
    · -- Only labels without a position are refused.
      simp only [Symbols.labelsOn, Symbols.known] at asked
      split at asked
      · cases asked
      · split at asked
        · cases asked
        · unfold Symbols.labelValue at asked
          split at asked
          · split at asked
            · cases asked
            · split at asked <;> cases asked
              rfl
          · split at asked <;> cases asked
            rfl
    · simp only [Symbols.labelsOn, Symbols.call] at asked
      split at asked
      · split at asked <;> cases asked
        rfl
      · cases asked

namespace Operand

theorem emits_fieldOf (raw : String) (tree : Expr) (latched : Bool) :
    Emits (fieldOf raw tree latched) := by
  intro f failed
  unfold fieldOf at failed
  split at failed
  · unfold bracketField at failed
    split at failed
    · cases failed
    · split at failed <;> cases failed
      rfl
  · split at failed
    · unfold registerField at failed
      split at failed <;> cases failed
      rfl
    · cases failed

theorem emits_field (ctx : Context) (line : Line) (o : Operand) :
    Emits (o.field ctx line).1 := by
  cases o with
  | fixed code raw => exact failsWith_ok code
  | expression raw tree last latched =>
    simp only [field]
    split
    · rename_i failed
      exact (ctx.emits_evaluate line tree).error failed
    · split
      · rename_i failed
        exact (emits_fieldOf _ _ _).error failed
      · exact failsWith_ok _

theorem emits_extra (o : Operand) (code : UInt16) (finalize : Bool) :
    Emits (o.extra code finalize) := by
  intro f failed
  cases o with
  | fixed => cases failed
  | expression raw tree last latched =>
    simp only [extra] at failed
    split at failed
    · cases failed
    · split at failed
      · cases failed
      · rename_i word
        cases failed
        split at word
        · unfold displacement at word
          split at word
          · split at word
            · cases word
              rfl
            · cases word
            · split at word <;> cases word
              rfl
          · cases word
            rfl
        · unfold wordOf at word
          split at word
          · cases word
          · split at word <;> cases word
            rfl

end Operand

namespace BasicOperation

theorem emits_fields (ctx : Context) (line : Line) (i : BasicOperation) :
    Emits (i.fields ctx line).1 := by
  unfold fields
  split
  · rename_i failed
    exact (i.a.emits_field ctx line).error (congrArg Prod.fst failed)
  · split
    · rename_i failed
      exact (i.b.emits_field ctx line).error (congrArg Prod.fst failed)
    · exact failsWith_ok _

theorem emits_encode (ctx : Context) (line : Line) (i : BasicOperation) :
    Emits (i.encode ctx line).1 := by
  rw [encode_eq]
  refine failsWith_bind (i.emits_fields ctx line) ?_
  intro codes
  refine failsWith_bind (Operand.emits_extra _ _ _) ?_
  intro extraA
  refine failsWith_bind (Operand.emits_extra _ _ _) ?_
  intro extraB
  exact failsWith_ok _

theorem emits_substitute (ctx : Context) (line : Line) (position : Int) (depth : Nat)
    (replacing : Option BasicOp) (i : BasicOperation) :
    Emits (i.substitute ctx line position depth replacing).1 := by
  induction depth generalizing replacing i with
  | zero => exact failsWith_ok _
  | succ depth ih =>
    unfold substitute
    split
    · rename_i failed
      exact (i.emits_fields ctx line).error (congrArg Prod.fst failed)
    · split
      · exact failsWith_ok _
      · split
        · rename_i failed
          exact (ih _ _).error (congrArg Prod.fst failed)
        · simp only
          split
          · rename_i failed
            exact (emits_fields ctx line _).error (congrArg Prod.fst failed)
          · exact failsWith_ok _

end BasicOperation

theorem SpecialOperation.emits_encode (ctx : Context) (line : Line) (i : SpecialOperation) :
    Emits (i.encode ctx line).1 := by
  unfold encode
  split
  · rename_i failed
    exact (i.a.emits_field ctx line).error (congrArg Prod.fst failed)
  · refine failsWith_bind (Operand.emits_extra _ _ _) ?_
    intro extra
    exact failsWith_ok _

theorem Instruction.emits_emit (optimize : Bool) (ctx : Context) (line : Line) (position : Int)
    (i : Instruction) : Emits (i.emit optimize ctx line position).1 := by
  cases i with
  | special written => exact written.emits_encode ctx line
  | basic written used =>
    cases optimize with
    | false => exact written.emits_encode ctx line
    | true =>
      rw [emit, emitBasic_optimized]
      split
      · rename_i failed
        exact (written.emits_substitute ctx line position _ none).error failed
      · exact written.emits_encode ctx line
      · rename_i sub _
        exact sub.emits_encode ctx line

theorem DataItem.emits_emit (ctx : Context) (line : Line) (item : DataItem) :
    Emits (item.emit ctx line).1 := by
  cases item with
  | string => exact failsWith_ok _
  | value tree last raw =>
    simp only [emit]
    split
    · rename_i failed
      exact (ctx.emits_evaluate line tree).error failed
    · split
      · exact failsWith_ok _
      · split
        · intro f failed
          cases failed
          rfl
        · exact failsWith_ok _

theorem DataItem.emits_emitAll (ctx : Context) (line : Line) (items : List DataItem) :
    Emits (emitAll ctx line items).1 := by
  induction items with
  | nil => exact failsWith_ok _
  | cons item rest ih =>
    unfold emitAll
    split
    · rename_i failed
      exact (item.emits_emit ctx line).error (congrArg Prod.fst failed)
    · split
      · rename_i failed
        exact ih.error (congrArg Prod.fst failed)
      · exact failsWith_ok _

theorem Fill.emits_evaluate (ctx : Context) (line : Line) (tree : Expr) :
    Emits (evaluate ctx line tree) := by
  unfold evaluate
  split
  · rename_i failed
    exact (ctx.emits_evaluate line tree).error failed
  · split
    · exact failsWith_ok _
    · split
      · intro f failed
        cases failed
        rfl
      · exact failsWith_ok _

theorem Padding.emits_copies (n : Nat) (word : UInt16) : Emits (copies n word) := by
  unfold copies
  split
  · intro fault failed
    cases failed
    rfl
  · exact failsWith_ok _

theorem Fill.emits_emit (ctx : Context) (line : Line) (old : Option Nat) (f : Fill) :
    Emits (f.emit ctx line old).1 := by
  unfold emit
  split
  · rename_i failed
    exact (emits_evaluate ctx line _).error failed
  · dsimp only
    split
    · intro fault failed
      cases failed
      rfl
    · split
      · exact Padding.emits_copies _ _
      · split
        · rename_i failed
          exact (emits_evaluate ctx line _).error failed
        · exact Padding.emits_copies _ _

theorem Align.emits_emit (ctx : Context) (line : Line) (position : Int) (old : Option Nat)
    (a : Align) : Emits (a.emit ctx line position old).1 := by
  unfold emit
  split
  · rename_i failed
    exact (ctx.emits_evaluate line _).error failed
  · dsimp only
    split
    · split
      · intro fault failed
        cases failed
        rfl
      · exact Padding.emits_copies _ _
    · split
      · intro fault failed
        cases failed
        rfl
      · exact failsWith_ok _

theorem Data.emits_emit (ctx : Context) (line : Line) (d : Data) : Emits (d.emit ctx line).1 := by
  unfold emit
  split
  · rename_i failed
    exact (DataItem.emits_emitAll ctx line d.items).error (congrArg Prod.fst failed)
  · exact failsWith_ok _

theorem Statement.failsWith_stored {allowed : Fault → Prop}
    {outcome : Except Fault (Option (List UInt16))} (fails : FailsWith allowed outcome) :
    FailsWith allowed (stored outcome) := by
  cases outcome with
  | error f => exact fails.error rfl
  | ok given => exact failsWith_ok _

theorem Statement.emits_emit (optimize : Bool) (ctx : Context) (position : Int) (old : Option Nat)
    (st : Statement) : Emits (st.emit optimize ctx position old).outcome := by
  obtain ⟨line, body⟩ := st
  cases body with
  | instruction i =>
    rw [outcome_instruction]
    exact i.emits_emit optimize ctx line position
  | data d => exact failsWith_stored (d.emits_emit ctx line)
  | fill f => exact failsWith_stored (f.emits_emit ctx line old)
  | align a => exact failsWith_stored (a.emits_emit ctx line position old)

end WordAsm
