import WordAsm.Proofs.Emission
import WordAsm.Proofs.Evaluation
import WordAsm.Proofs.InstructionWord
import WordAsm.Proofs.RegisterNames

/-!
The fields of instructions. A pass neither adds nor drops a register, so the form of an operand is
that of the tree that was read; each form has its fields, and each field the words that belong to
it. Latches and what was last simplified do not change the form.
-/
namespace WordAsm

namespace Expr

theorem isGrouped_simplify {resolver : Resolver ε} {e e' : Expr}
    (simplified : e.simplify resolver = .ok e') : e'.isGrouped = e.isGrouped := by
  cases e with
  | leaf text g =>
    rcases simplify_leaf simplified with ⟨_, _, rfl⟩ | ⟨_, ⟨_, _, rfl⟩ | ⟨_, rfl⟩⟩ <;> rfl
  | number n g => cases simplified; rfl
  | unary op e g =>
    obtain ⟨operand, _, rfl⟩ := simplify_unary simplified
    rcases foldUnary_cases op operand g with ⟨_, _, _, _, _, folded⟩ | ⟨_, folded⟩ <;>
      rw [folded] <;> rfl
  | binary op l r g =>
    rcases simplify_binary simplified with ⟨_, _, _, _, rfl⟩ | ⟨_, _, _, _, _, folded⟩
    · rfl
    · rcases foldBinary_cases folded with ⟨_, _, _, _, _, _, _, _, rfl⟩ | ⟨_, rfl⟩ <;> rfl
  | absent => cases simplified; rfl

/-- No question about definitions is left in the tree. -/
def isdefFree : Expr → Bool
  | unary _ e _ => e.isdefFree
  | binary op l r _ =>
    !(callee? op l).any (Text.alike · "isdef") && l.isdefFree && r.isdefFree
  | _ => true

theorem isdefFree_of_simplify {s : Symbols} {line : Line} {e e' : Expr}
    (simplified : e.simplify (s.constantsOn line) = .ok e') : e'.isdefFree = true := by
  induction e generalizing e' with
  | leaf text g =>
    rcases simplify_leaf simplified with ⟨_, _, rfl⟩ | ⟨_, ⟨_, _, rfl⟩ | ⟨_, rfl⟩⟩ <;> rfl
  | number n g => cases simplified; rfl
  | unary op e g ih =>
    obtain ⟨operand, inner, rfl⟩ := simplify_unary simplified
    have free := ih inner
    rcases foldUnary_cases op operand g with ⟨_, _, _, _, _, folded⟩ | ⟨_, folded⟩
    · rw [folded]
      rfl
    · rw [folded]
      exact free
  | binary op l r g ihl ihr =>
    rcases simplify_binary simplified with
      ⟨_, _, _, _, rfl⟩ | ⟨opened, l', r', left, right, folded⟩
    · rfl
    · rcases foldBinary_cases folded with ⟨_, _, _, _, _, _, _, _, rfl⟩ | ⟨_, rfl⟩
      · rfl
      · -- A question that is still in the tree would have been asked, and is always answered.
        have unasked : (callee? op l').any (Text.alike · "isdef") = false := by
          cases called : callee? op l' with
          | none => rfl
          | some fn =>
            have answered := opened fn (callee_of_simplify left called)
            simp only [Symbols.constantsOn, Symbols.call] at answered
            split at answered
            · split at answered <;> cases answered
            · rename_i other
              simpa using other
        simp [isdefFree, unasked, ihl left, ihr right]
  | absent => cases simplified; rfl

theorem isdefFree_group (e : Expr) : e.group.isdefFree = e.isdefFree := by cases e <;> rfl

end Expr

theorem Symbols.isdefFree_of_build {s : Symbols} {line : Line} {source : String} {tree : Expr}
    (built : s.build line source = .ok tree) : tree.isdefFree = true := by
  unfold build at built
  split at built
  · cases built
  · split at built
    · rename_i simplified
      cases built
      exact Expr.isdefFree_of_simplify simplified
    · cases built

namespace Context

theorem registers_evaluate {ctx : Context} {line : Line} {tree e : Expr}
    (free : tree.isdefFree = true) (evaluated : ctx.evaluate line tree = .ok e) :
    e.symbols.filter isRegister = tree.symbols.filter isRegister := by
  have simplified := evaluate_ok evaluated
  clear evaluated
  induction tree generalizing e with
  | leaf text g =>
    rcases Expr.simplify_leaf simplified with
      ⟨n, literal, rfl⟩ | ⟨literal, ⟨n, asked, rfl⟩ | ⟨_, rfl⟩⟩
    · simp [Expr.symbols, literal]
    · -- Only symbols that are no registers have an answer.
      have unnamed : isRegister text = false := by
        simp only [Symbols.labelsOn, Symbols.known] at asked
        split at asked
        · cases asked
        · rename_i other
          simpa using other
      simp [Expr.symbols, literal, unnamed]
    · rfl
  | number n g => cases simplified; rfl
  | unary op e g ih =>
    obtain ⟨operand, inner, rfl⟩ := Expr.simplify_unary simplified
    have same := ih free inner
    rcases Expr.foldUnary_cases op operand g with ⟨_, _, _, rfl, _, folded⟩ | ⟨_, folded⟩
    · rw [folded]
      exact same
    · rw [folded]
      exact same
  | binary op l r g ihl ihr =>
    simp only [Expr.isdefFree, Bool.and_eq_true, Bool.not_eq_true'] at free
    obtain ⟨⟨unasked, freeLeft⟩, freeRight⟩ := free
    rcases Expr.simplify_binary simplified with
      ⟨fn, _, called, answered, _⟩ | ⟨_, l', r', left, right, folded⟩
    · rw [called, Option.any_some] at unasked
      simp [Symbols.labelsOn, Symbols.call, unasked] at answered
    · have sameLeft := ihl freeLeft left
      have sameRight := ihr freeRight right
      rcases Expr.foldBinary_cases folded with ⟨_, _, _, _, _, rfl, rfl, _, rfl⟩ | ⟨_, rfl⟩
      · rw [Expr.symbols, Expr.symbols, List.filter_append, ← sameLeft, ← sameRight]
        rfl
      · rw [Expr.symbols, Expr.symbols, List.filter_append, List.filter_append, sameLeft, sameRight]
  | absent => cases simplified; rfl

theorem firstRegister_evaluate {ctx : Context} {line : Line} {tree e : Expr}
    (free : tree.isdefFree = true) (evaluated : ctx.evaluate line tree = .ok e) :
    Operand.firstRegister? e = Operand.firstRegister? tree := by
  simp only [Operand.firstRegister?, ← List.head?_filter, registers_evaluate free evaluated]

theorem isSymbol_evaluate {ctx : Context} {line : Line} {tree e : Expr} {name : String}
    (evaluated : ctx.evaluate line tree = .ok e)
    (first : Operand.firstRegister? tree = some name) : e.isSymbol = tree.isSymbol := by
  have simplified := evaluate_ok evaluated
  cases tree with
  | leaf text g =>
    rcases Expr.simplify_leaf simplified with
      ⟨n, literal, rfl⟩ | ⟨literal, ⟨n, asked, rfl⟩ | ⟨_, rfl⟩⟩
    · simp [Expr.isSymbol, Expr.symbol?, literal]
    · have named : isRegister text = true ∧ Text.upper text = name := by
        simpa [Operand.firstRegister?, Expr.symbols, literal] using first
      simp [Symbols.labelsOn, Symbols.known, named.1] at asked
    · rfl
  | number n g => cases first
  | unary op operand g =>
    cases e with
    | leaf text g' => cases Expr.leaf_of_simplify simplified
    | _ => rfl
  | binary op l r g =>
    cases e with
    | leaf text g' => cases Expr.leaf_of_simplify simplified
    | _ => rfl
  | absent => cases first

end Context

namespace Field

theorem mem_spellings {text : String} {code : UInt16} (read : ofText? text = some code) :
    (Text.upper (Text.squeeze text), code) ∈ spellings := by
  obtain ⟨before, after, split, _⟩ := List.lookup_eq_some_iff.1 read
  simp [split]

theorem spelling_ok {text : String} {code : UInt16} (read : ofText? text = some code) :
    Takes code [] ∧ ofText? (Argument.ofField code 0).text = some code := by
  have checked : ∀ entry ∈ spellings, entry.2.toNat < 64 ∧ hasNextWord entry.2 = false ∧
      ofText? (Argument.ofField entry.2 0).text = some entry.2 := by decide +kernel
  obtain ⟨bound, alone, canonical⟩ := checked _ (mem_spellings read)
  exact ⟨⟨bound, by simp [alone]⟩, canonical⟩

theorem spelling_not_literal {text : String} {code : UInt16}
    (read : ofText? text = some code) : ¬ literal ≤ code ∧ code ≠ nextWord := by
  have checked : ∀ entry ∈ spellings,
      ¬ literal ≤ entry.2 ∧ entry.2 ≠ nextWord := by decide +kernel
  exact checked _ (mem_spellings read)

theorem ofText_register {name : String} (member : name ∈ registerNames) :
    ∃ code, ofText? name = some code := by
  have checked : ∀ name ∈ registerNames, (ofText? name).isSome = true := by decide +kernel
  exact Option.isSome_iff_exists.1 (checked name member)

theorem hasNextWord_displaced (r : Register) : hasNextWord (displaced + r.index) = true := by
  cases r <;> rfl

theorem displaced_lt_pop (r : Register) : displaced + r.index < pop := by cases r <;> decide

theorem literal_ok {v : UInt16} (short : v ≤ maxLiteral) :
    hasNextWord (literal + v) = false ∧ (Argument.ofField (literal + v) 0).literal? = some v ∧
      (Argument.ofField (literal + v) 0).extra = [] := by
  have checked : ∀ n < 32, hasNextWord (literal + UInt16.ofNat n) = false ∧
      (Argument.ofField (literal + UInt16.ofNat n) 0).literal? = some (UInt16.ofNat n) ∧
      (Argument.ofField (literal + UInt16.ofNat n) 0).extra = [] := by
    decide +kernel
  have applied := checked v.toNat (Nat.lt_succ_of_le (UInt16.le_iff_toNat_le.1 short))
  rwa [UInt16.ofNat_toNat] at applied

end Field

namespace Operand

/-- An operand as reading gives it, whatever passes have made of it since. -/
def WellRead : Operand → Prop
  | fixed code raw => Field.ofText? raw = some code
  | expression _ tree _ _ => tree.isdefFree = true

theorem wellRead_of_read {s : Symbols} {line : Line} {token : String} {o : Operand}
    (read : Operand.read s line token = .ok o.fresh) : o.WellRead := by
  unfold Operand.read at read
  dsimp only at read
  split at read
  · rename_i code spelled
    cases o with
    | fixed code' raw =>
      cases read
      exact spelled
    | expression => cases read
  · split at read
    · rename_i tree built
      cases o with
      | fixed => cases read
      | expression raw tree' last latched =>
        cases read
        exact Symbols.isdefFree_of_build built
    · cases read

theorem wellRead_congr {o o' : Operand} (same : o'.fresh = o.fresh) (wellRead : o.WellRead) :
    o'.WellRead := by
  cases o with
  | fixed code raw =>
    cases o' with
    | fixed code' raw' =>
      cases same
      exact wellRead
    | expression => cases same
  | expression raw tree last latched =>
    cases o' with
    | fixed => cases same
    | expression raw' tree' last' latched' =>
      cases same
      exact wellRead

theorem fresh_fresh (o : Operand) : o.fresh.fresh = o.fresh := by cases o <;> rfl

theorem register_of_first {tree : Expr} {name : String} (first : firstRegister? tree = some name) :
    ∃ text, tree.symbols.find? isRegister = some text ∧ isRegister text = true ∧
      name ∈ registerNames ∧ Register.find? name = Register.find? text := by
  obtain ⟨text, found, upper⟩ := Option.map_eq_some_iff.1 first
  have named := List.find?_some found
  obtain ⟨name', member, _, same⟩ := exists_of_isRegister named
  refine ⟨text, found, named, ?_, ?_⟩
  · rw [← upper, same]
    exact member
  · rw [← upper, Register.find_upper named]

theorem fieldOf_cases {raw : String} {tree : Expr} {latched : Bool} {code : UInt16}
    (classified : fieldOf raw tree latched = .ok code) :
    (isBracketed raw tree = true ∧ firstRegister? tree = none ∧ code = Field.memory) ∨
    (isBracketed raw tree = true ∧ ∃ name r, firstRegister? tree = some name ∧
      Register.find? name = some r ∧
      code = (if tree.isSymbol then Field.indirect else Field.displaced) + r.index) ∨
    (isBracketed raw tree = false ∧ ∃ name, firstRegister? tree = some name ∧
      tree.isSymbol = true ∧ Field.ofText? name = some code) ∨
    (isBracketed raw tree = false ∧ firstRegister? tree = none ∧
      code = literalField tree latched) := by
  unfold fieldOf at classified
  split at classified
  · rename_i bracketed
    unfold bracketField at classified
    split at classified
    · rename_i first
      cases classified
      exact .inl ⟨bracketed, first, rfl⟩
    · rename_i name first
      split at classified
      · cases classified
      · rename_i r found
        cases classified
        exact .inr (.inl ⟨bracketed, name, r, first, found, rfl⟩)
  · rename_i plain
    rw [Bool.not_eq_true] at plain
    split at classified
    · rename_i name first
      unfold registerField at classified
      split at classified
      · rename_i named
        obtain ⟨s, symbol, _⟩ := (Option.any_eq_true _ _).1 named
        obtain ⟨_, _, _, member, _⟩ := register_of_first first
        obtain ⟨code', spelled⟩ := Field.ofText_register member
        rw [spelled] at classified
        cases classified
        exact .inr (.inr (.inl ⟨plain, name, first, by simp [Expr.isSymbol, symbol], spelled⟩))
      · cases classified
    · rename_i first
      cases classified
      exact .inr (.inr (.inr ⟨plain, first, rfl⟩))

theorem fieldOf_bound {raw : String} {tree : Expr} {latched : Bool} {code : UInt16}
    (classified : fieldOf raw tree latched = .ok code) : code.toNat < 64 := by
  rcases fieldOf_cases classified with ⟨_, _, rfl⟩ | ⟨_, _, r, _, _, rfl⟩ |
    ⟨_, _, _, _, spelled⟩ | ⟨_, _, rfl⟩
  · decide
  · split <;> cases r <;> decide
  · exact (Field.spelling_ok spelled).1.bound
  · unfold literalField
    split
    · split
      · rename_i short
        simp only [Bool.and_eq_true, decide_eq_true_eq, UInt16.le_iff_toNat_le] at short
        have small : (lowWord _).toNat ≤ 31 := short.2
        rw [UInt16.toNat_add, show Field.literal.toNat = 32 from rfl]
        omega
      · decide
    · decide

theorem fieldOf_relatched {raw : String} {e : Expr} {latched latched' : Bool} {code code' : UInt16}
    (classified : fieldOf raw e latched = .ok code)
    (classified' : fieldOf raw e latched' = .ok code') :
    code' = code ∨ (code = literalField e latched ∧ code' = literalField e latched') := by
  unfold fieldOf at classified classified'
  split at classified
  · rename_i bracketed
    rw [if_pos bracketed, classified] at classified'
    cases classified'
    exact .inl rfl
  · rename_i plain
    rw [if_neg plain] at classified'
    cases first : firstRegister? e with
    | some name =>
      simp only [first] at classified classified'
      rw [classified] at classified'
      cases classified'
      exact .inl rfl
    | none =>
      simp only [first] at classified classified'
      cases classified
      cases classified'
      exact .inr ⟨rfl, rfl⟩

theorem extra_next {raw : String} {tree last : Expr} {latched finalize : Bool} {code : UInt16}
    {words : List UInt16} (next : Field.hasNextWord code = true)
    (given : (expression raw tree last latched).extra code finalize = .ok words) :
    ∃ w, words = [w] ∧ (if code < Field.pop then displacement raw last finalize
      else wordOf raw last finalize) = .ok w := by
  simp only [extra, next, Bool.not_true, Bool.false_eq_true, if_false] at given
  split at given
  · rename_i w found
    cases given
    exact ⟨w, rfl, found⟩
  · cases given

theorem extra_single (o : Operand) {code : UInt16} (alone : Field.hasNextWord code = false)
    (finalize : Bool) : o.extra code finalize = .ok [] := by
  cases o with
  | fixed => rfl
  | expression => simp [extra, alone]

theorem extra_alone {raw : String} {tree last : Expr} {latched finalize : Bool} {code : UInt16}
    {words : List UInt16} (alone : Field.hasNextWord code = false)
    (given : (expression raw tree last latched).extra code finalize = .ok words) : words = [] := by
  rw [extra_single _ alone] at given
  cases given
  rfl

theorem literal_of_number {raw : String} {tree : Expr} {latched latched' finalize : Bool}
    {n : Int64} {g : Bool} {words : List UInt16}
    (given : (expression raw tree (.number n g) latched').extra
      (literalField (.number n g) latched) finalize = .ok words) :
    (Argument.ofField (literalField (.number n g) latched) (words.headD 0)).literal? =
      some (lowWord n) := by
  simp only [literalField] at given ⊢
  split
  · rename_i short
    rw [if_pos short] at given
    simp only [Bool.and_eq_true, decide_eq_true_eq] at short
    obtain ⟨alone, decoded, _⟩ := Field.literal_ok short.2
    obtain rfl := extra_alone alone given
    exact decoded
  · rename_i long
    rw [if_neg long] at given
    obtain ⟨w, rfl, found⟩ := extra_next (by decide) given
    rw [if_neg (by decide)] at found
    cases found
    rfl

section

variable {ctx : Context} {line : Line} {o left : Operand} {code : UInt16}

/-- The field of an expression is that of its simplified tree, and the latch that is left counts
whether it took a word when all labels were known. -/
theorem field_latched {raw : String} {tree last : Expr} {latched : Bool}
    (classified : (expression raw tree last latched).field ctx line = (.ok code, left)) :
    ∃ e, ctx.evaluate line tree = .ok e ∧ fieldOf raw e latched = .ok code ∧
      left = expression raw tree e (latched || (ctx.finalize && code == Field.nextWord)) := by
  simp only [field] at classified
  split at classified
  · cases classified
  · rename_i e evaluated
    split at classified
    · cases classified
    · rename_i code' known
      cases classified
      exact ⟨e, evaluated, known, rfl⟩

theorem field_expression {raw : String} {tree last : Expr} {latched : Bool}
    (classified : (expression raw tree last latched).field ctx line = (.ok code, left)) :
    ∃ e latched', ctx.evaluate line tree = .ok e ∧ fieldOf raw e latched = .ok code ∧
      left = expression raw tree e latched' := by
  obtain ⟨e, evaluated, known, left⟩ := field_latched classified
  exact ⟨e, _, evaluated, known, left⟩

theorem fresh_left {outcome : Except Fault UInt16}
    (classified : o.field ctx line = (outcome, left)) : left.fresh = o.fresh := by
  have kept := o.fresh_field ctx line
  rwa [classified] at kept

theorem field_left {outcome : Except Fault UInt16}
    (classified : o.field ctx line = (outcome, left)) :
    left.field ctx line = (outcome, left) := by
  have again := o.field_again ctx line
  rwa [classified] at again

theorem takes {finalize : Bool} {words : List UInt16} (wellRead : o.WellRead)
    (classified : o.field ctx line = (.ok code, left))
    (given : left.extra code finalize = .ok words) : Field.Takes code words := by
  cases o with
  | fixed code' raw =>
    cases classified
    cases given
    exact (Field.spelling_ok wellRead).1
  | expression raw tree last latched =>
    obtain ⟨e, latched', _, known, rfl⟩ := field_expression classified
    refine ⟨fieldOf_bound known, ?_⟩
    cases next : Field.hasNextWord code with
    | true =>
      obtain ⟨w, rfl, _⟩ := extra_next next given
      rfl
    | false =>
      obtain rfl := extra_alone next given
      rfl

end

end Operand

namespace BasicOperation

def WellRead (i : BasicOperation) : Prop := i.a.WellRead ∧ i.b.WellRead

theorem fields_ok {ctx : Context} {line : Line} {i left : BasicOperation} {codeA codeB : UInt16}
    (fields : i.fields ctx line = (.ok (codeA, codeB), left)) :
    left.op = i.op ∧ i.a.field ctx line = (.ok codeA, left.a) ∧
      i.b.field ctx line = (.ok codeB, left.b) := by
  unfold BasicOperation.fields at fields
  rcases fieldA : i.a.field ctx line with ⟨_ | codeA, a⟩
  · simp [fieldA] at fields
  rcases fieldB : i.b.field ctx line with ⟨_ | codeB, b⟩
  · simp [fieldA, fieldB] at fields
  simp only [fieldA, fieldB, Prod.mk.injEq, Except.ok.injEq] at fields
  obtain ⟨⟨rfl, rfl⟩, rfl⟩ := fields
  exact ⟨rfl, rfl, rfl⟩

theorem encode_ok {ctx : Context} {line : Line} {i : BasicOperation} {words : List UInt16}
    (encoded : (i.encode ctx line).1 = .ok words) :
    ∃ codeA a codeB b extraA extraB, i.a.field ctx line = (.ok codeA, a) ∧
      i.b.field ctx line = (.ok codeB, b) ∧ a.extra codeA ctx.finalize = .ok extraA ∧
      b.extra codeB ctx.finalize = .ok extraB ∧
      words = Word.encode i.op.opcode codeA codeB :: (extraA ++ extraB) := by
  unfold encode fields at encoded
  rcases fieldA : i.a.field ctx line with ⟨_ | codeA, a⟩
  · simp [fieldA] at encoded
  rcases fieldB : i.b.field ctx line with ⟨_ | codeB, b⟩
  · simp [fieldA, fieldB] at encoded
  simp only [fieldA, fieldB, assemble] at encoded
  obtain ⟨extraA, givenA, encoded⟩ := bind_ok encoded
  obtain ⟨extraB, givenB, encoded⟩ := bind_ok encoded
  cases encoded
  exact ⟨codeA, a, codeB, b, extraA, extraB, rfl, rfl, givenA, givenB, rfl⟩

end BasicOperation

namespace SpecialOperation

theorem encode_ok {ctx : Context} {line : Line} {i : SpecialOperation} {words : List UInt16}
    (encoded : (i.encode ctx line).1 = .ok words) :
    ∃ code a extra, i.a.field ctx line = (.ok code, a) ∧ a.extra code ctx.finalize = .ok extra ∧
      words = Word.encode 0 i.op.opcode code :: extra := by
  unfold encode at encoded
  rcases field : i.a.field ctx line with ⟨_ | code, a⟩
  · simp [field] at encoded
  simp only [field, assemble] at encoded
  obtain ⟨extra, given, encoded⟩ := bind_ok encoded
  cases encoded
  exact ⟨code, a, extra, rfl, given, rfl⟩

end SpecialOperation

namespace Instruction

def mnemonic : Instruction → Mnemonic
  | basic written _ => .basic written.op
  | special written => .special written.op

def WellRead : Instruction → Prop
  | basic written _ => written.WellRead
  | special written => written.a.WellRead

theorem wellRead_of_read {s : Symbols} {line : Line} {i : Instruction}
    (read : Instruction.read s line = .ok i.fresh) :
    Mnemonic.find? line.first = some i.mnemonic ∧ i.WellRead := by
  unfold Instruction.read at read
  split at read
  · cases read
  · rename_i m found
    rw [found]
    split at read
    · rename_i op a b _
      obtain ⟨first, readA, read⟩ := bind_ok read
      obtain ⟨second, readB, read⟩ := bind_ok read
      cases i with
      | basic written used =>
        cases read
        exact ⟨rfl, Operand.wellRead_of_read readA, Operand.wellRead_of_read readB⟩
      | special written => cases read
    · rename_i op a _
      obtain ⟨first, readA, read⟩ := bind_ok read
      cases i with
      | basic written used => cases read
      | special written =>
        cases read
        exact ⟨rfl, Operand.wellRead_of_read readA⟩
    · cases read

/-- The words of an instruction as it is written. -/
def encode (ctx : Context) (line : Line) : Instruction → Except Fault (List UInt16)
  | basic written _ => (written.encode ctx line).1
  | special written => (written.encode ctx line).1

theorem emit_plain (ctx : Context) (line : Line) (position : Int) (i : Instruction) :
    (i.emit false ctx line position).1 = i.encode ctx line := by
  cases i <;> rfl

end Instruction

end WordAsm
