import Mathlib.Data.List.Forall2
import WordAsm.Proofs.ArgumentTexts
import WordAsm.Proofs.Displacement

/-!
Instructions and what they decode to. Encoding an instruction in a finalizing pass and decoding
the words gives the same mnemonic and, for each operand, one that denotes it: registers and stack
operands keep their field, literals and addresses their value, and a displacement is the
difference between the expression and its register, whatever the register holds.
-/
namespace WordAsm

namespace Argument

def Spells (text : String) (arg : Argument) : Prop :=
  ∃ code, Field.ofText? text = some code ∧ arg = .ofField code 0 ∧
    Field.ofText? arg.text = some code

theorem spells_text {a : Argument} (found : Field.ofText? a.text = some a.code)
    (alone : a = .ofField a.code 0) : a.Spells a.text := ⟨a.code, found, alone, found⟩

theorem ofField_indirect (r : Register) (next : UInt16) :
    ofField (Field.indirect + r.index) next = indirect r := by cases r <;> rfl

theorem ofField_displaced (r : Register) (next : UInt16) :
    ofField (Field.displaced + r.index) next = displaced next r := by cases r <;> rfl

end Argument

namespace Operand

theorem beside_of_besideRegister {name : String} {top e : Expr}
    (found : besideRegister? name top = some e) :
    ∃ l r g, top = .binary "+" l r g ∧ e = Expr.beside name l r := by
  unfold besideRegister? at found
  split at found
  · rename_i op l r g
    split at found
    · cases found
    · rename_i plus
      have sum : op = "+" := by simpa using plus
      refine ⟨l, r, g, by rw [sum], ?_⟩
      unfold Expr.beside Expr.isNamed
      split at found <;> cases found <;> rename_i named <;> simp [named]
  · cases found

theorem find_of_sole {tree : Expr} {name s : String} {r : Register}
    (first : firstRegister? tree = some name) (general : Register.find? name = some r)
    (sole : (tree.symbols.filter fun s => (Register.find? s).isSome) = [s]) :
    Register.find? s = some r := by
  obtain ⟨text, leading, _, _, same⟩ := register_of_first first
  have member : text ∈ tree.symbols.filter fun s => (Register.find? s).isSome := by
    refine List.mem_filter.2 ⟨List.mem_of_find?_eq_some leading, ?_⟩
    rw [← same, general]
    rfl
  rw [sole, List.mem_singleton] at member
  rw [← member, ← same, general]

theorem carries_of_beside {s : String} {tree : Expr} {n : Int64} {g : Bool}
    (beside : (Expr.bringToTop .standard tree s).bind (besideRegister? s) = some (.number n g)) :
    Expr.Carries .standard s tree n := by
  obtain ⟨top, brought, besides⟩ := Option.bind_eq_some_iff.1 beside
  obtain ⟨l, r, g', rfl, other⟩ := beside_of_besideRegister besides
  have risen : Expr.bring .standard s tree = some (.binary "+" l r g') := by
    unfold Expr.bringToTop at brought
    split at brought
    · exact brought
    · cases brought
  refine .inr ⟨l, r, g', risen, ?_⟩
  rw [← other]
  exact Expr.foldsTo_number n g

theorem value_of_displacement {raw name : String} {tree : Expr} {w : UInt16} {r : Register}
    (found : displacement raw tree true = .ok w) (first : firstRegister? tree = some name)
    (general : Register.find? name = some r) (reduced : tree.Reduced) :
    ∃ n, w = lowWord n ∧ ∀ (ρ : Valuation) (x : Int64),
      (∀ text, isRegister text = true → Register.find? text = some r → ρ.symbol text = some x) →
      tree.value ρ = some (x + n) := by
  unfold displacement at found
  split at found
  · rename_i s sole
    have same := find_of_sole first general sole
    split at found
    · cases found
    · rename_i n g beside
      cases found
      refine ⟨n, rfl, ?_⟩
      intro ρ x held
      apply Expr.value_of_carries ?_ reduced (carries_of_beside beside)
      intro e named
      obtain ⟨text, symbol, alike⟩ := (Option.any_eq_true _ _).1 named
      have general : Register.find? text = some r := by rw [Register.find_congr alike, same]
      have value := held text (Register.isRegister_of_find general) general
      cases e with
      | leaf text' g =>
        cases literal : Literal.number? text' with
        | some n => simp [Expr.symbol?, literal] at symbol
        | none =>
          obtain rfl : text' = text := by simpa [Expr.symbol?, literal] using symbol
          simp [Expr.value, literal, value]
      | _ => cases symbol
    · cases found
  · cases found

theorem number_of_wordOf {raw : String} {tree : Expr} {w : UInt16}
    (found : wordOf raw tree true = .ok w) : ∃ n g, tree = .number n g ∧ w = lowWord n := by
  unfold wordOf at found
  split at found
  · rename_i n g
    cases found
    exact ⟨n, g, rfl, rfl⟩
  · cases found

theorem number_of_literalField {raw : String} {tree last : Expr} {latched latched' : Bool}
    {words : List UInt16}
    (given : (expression raw tree last latched').extra (literalField last latched) true =
      .ok words) : ∃ n g, last = .number n g := by
  cases last with
  | number n g => exact ⟨n, g, rfl⟩
  | _ =>
    obtain ⟨w, _, found⟩ := extra_next (by rfl) given
    cases found

/-- What an argument has to be to denote an operand, where symbols have values by `ρ` and general
registers hold any values. -/
def Denotes (ρ : (Register → Option Int64) → Valuation) (arg : Argument) : Operand → Prop
  | fixed _ raw => arg.Spells raw
  | expression raw tree _ _ =>
    match isBracketed raw tree, firstRegister? tree with
    | true, none => ∃ v, tree.HasValue ρ v ∧ arg = .memory (lowWord v)
    | true, some name =>
      ∃ r, Register.find? name = some r ∧
        if tree.isSymbol then arg = .indirect r
        else ∃ d, arg = .displaced d r ∧ ∀ registers x, registers r = some x →
          ∃ v, tree.value (ρ registers) = some v ∧ lowWord v = lowWord x + d
    | false, some name => tree.isSymbol = true ∧ arg.Spells name
    | false, none => ∃ v, tree.HasValue ρ v ∧ arg.literal? = some (lowWord v)

theorem denotes {ctx : Context} {line : Line} {o left : Operand} {code : UInt16}
    {words : List UInt16} (wellRead : o.WellRead) (classified : o.field ctx line = (.ok code, left))
    (given : left.extra code true = .ok words) :
    o.Denotes (ctx.valuation line) (.ofField code (words.headD 0)) := by
  cases o with
  | fixed code' raw =>
    cases classified
    cases given
    exact ⟨code, wellRead, rfl, (Field.spelling_ok wellRead).2⟩
  | expression raw tree last latched =>
    obtain ⟨e, latched', evaluated, known, rfl⟩ := field_expression classified
    have bracketed : isBracketed raw tree = isBracketed raw e := by
      rw [isBracketed, isBracketed, Expr.isGrouped_simplify (Context.evaluate_ok evaluated)]
    have first := Context.firstRegister_evaluate wellRead evaluated
    have reduced := Expr.reduced_of_simplify (Context.evaluate_ok evaluated)
    simp only [Denotes, bracketed, ← first]
    rcases fieldOf_cases known with ⟨square, open_, rfl⟩ | ⟨square, name, r, named, general, rfl⟩ |
      ⟨plain, name, named, symbol, spelled⟩ | ⟨plain, open_, rfl⟩
    · obtain ⟨w, rfl, found⟩ := extra_next (by decide) given
      rw [if_neg (by decide)] at found
      obtain ⟨n, g, rfl, rfl⟩ := number_of_wordOf found
      simp only [square, open_]
      exact ⟨n, Context.hasValue_of_evaluate evaluated, rfl⟩
    · have symbol := Context.isSymbol_evaluate evaluated (first ▸ named)
      simp only [square, named, ← symbol]
      refine ⟨r, general, ?_⟩
      cases alone : e.isSymbol with
      | true => exact Argument.ofField_indirect r _
      | false =>
        rw [alone] at given
        obtain ⟨w, rfl, found⟩ := extra_next (Field.hasNextWord_displaced r) given
        rw [if_pos (Field.displaced_lt_pop r)] at found
        obtain ⟨n, rfl, adds⟩ := value_of_displacement found named general reduced
        refine ⟨lowWord n, Argument.ofField_displaced r _, ?_⟩
        intro registers x holds
        refine ⟨x + n, ?_, lowWord_add x n⟩
        rw [← Context.value_evaluate evaluated registers]
        apply adds
        intro text register general
        simp [Context.valuation, Symbols.valuation, register, general, holds]
    · simp only [plain, named]
      obtain ⟨taken, canonical⟩ := Field.spelling_ok spelled
      obtain rfl : words = [] := by
        have length := (takes wellRead classified given).length
        rw [← taken.length] at length
        exact List.length_eq_zero_iff.1 length
      refine ⟨?_, code, spelled, rfl, canonical⟩
      rw [← Context.isSymbol_evaluate evaluated (first ▸ named), symbol]
    · simp only [plain, open_]
      obtain ⟨n, g, rfl⟩ := number_of_literalField given
      exact ⟨n, Context.hasValue_of_evaluate evaluated, literal_of_number given⟩

theorem denotes_operand (a : Argument) (ctx : Context) (line : Line) :
    a.operand.Denotes (ctx.valuation line) a := by
  cases a with
  | displaced w r =>
    have square : isBracketed (Argument.displaced w r).text (.binary "+"
        (.number (Int64.ofNat w.toNat) false) (.leaf r.name false) true) = true := by
      simp [isBracketed, Argument.text, String.append_assoc, Expr.isGrouped]
    have leading : firstRegister? (.binary "+" (.number (Int64.ofNat w.toNat) false)
        (.leaf r.name false) true) = some r.name := by cases r <;> rfl
    have general : Register.find? r.name = some r := by cases r <;> decide +kernel
    have word : Literal.number? r.name = none := by cases r <;> rfl
    have named := Register.isRegister_of_find general
    simp only [Argument.operand, ofTree, Denotes, square, leading]
    refine ⟨r, general, w, rfl, ?_⟩
    intro registers x held
    refine ⟨Int64.ofNat w.toNat + x, ?_, ?_⟩
    · refine Expr.value_add rfl ?_
      simp [Expr.value, word, Context.valuation, Symbols.valuation, named, general, held]
    · rw [lowWord_add, lowWord_toNat, UInt16.add_comm]
  | memory w =>
    have square : isBracketed (Argument.memory w).text (.number (Int64.ofNat w.toNat) true) =
        true := by
      simp [isBracketed, Argument.text, String.append_assoc, Expr.isGrouped]
    simp only [Argument.operand, ofTree, Denotes, square]
    exact ⟨_, fun _ => rfl, by rw [lowWord_toNat]⟩
  | word w | short w =>
    simp only [Argument.operand, ofTree, Denotes, isBracketed, Expr.isGrouped]
    exact ⟨_, fun _ => rfl, by rw [lowWord_toNat]; rfl⟩
  | register r | indirect r => cases r <;> exact Argument.spells_text (by decide +kernel) rfl
  | _ => exact Argument.spells_text (by decide +kernel) rfl

end Operand

def Argument.IsReadFrom (a : Argument) (text : String) : Prop :=
  ∀ (ctx : Context) (line : Line), ∃ o, Operand.read ctx.symbols line text = .ok o ∧
    o.Denotes (ctx.valuation line) a

theorem Argument.isReadFrom_text (a : Argument) : a.IsReadFrom a.text := by
  intro ctx line
  exact ⟨a.operand, a.read_text ctx.symbols line, Operand.denotes_operand a ctx line⟩

namespace Instruction

def Denotes (ρ : (Register → Option Int64) → Valuation) (d : Decoded) : Instruction → Prop
  | basic written _ =>
    ∃ a b, d = .basic written.op a b ∧ written.a.Denotes ρ a ∧ written.b.Denotes ρ b
  | special written => ∃ a, d = .special written.op a ∧ written.a.Denotes ρ a

theorem decode_encode {ctx : Context} {line : Line} {i : Instruction} {words : List UInt16}
    (wellRead : i.WellRead) (final : ctx.finalize = true) (encoded : i.encode ctx line = .ok words)
    (rest : List UInt16) :
    ∃ d, decode? (words ++ rest) = some d ∧ d.size = words.length ∧
      i.Denotes (ctx.valuation line) d := by
  cases i with
  | basic written used =>
    obtain ⟨codeA, a, codeB, b, extraA, extraB, fieldA, fieldB, givenA, givenB, rfl⟩ :=
      BasicOperation.encode_ok encoded
    rw [final] at givenA givenB
    have takenA := Operand.takes wellRead.1 fieldA givenA
    have takenB := Operand.takes wellRead.2 fieldB givenB
    refine ⟨_, congrArg some (Decoded.ofWords_basic written.op takenA takenB rest), ?_,
      _, _, rfl, Operand.denotes wellRead.1 fieldA givenA,
      Operand.denotes wellRead.2 fieldB givenB⟩
    rw [Decoded.size_basic written.op takenA takenB, List.length_cons, List.length_append]
    omega
  | special written =>
    obtain ⟨code, a, extra, field, given, rfl⟩ := SpecialOperation.encode_ok encoded
    rw [final] at given
    have taken := Operand.takes wellRead field given
    refine ⟨_, congrArg some (Decoded.ofWords_special written.op taken rest), ?_,
      _, rfl, Operand.denotes wellRead field given⟩
    rw [Decoded.size_special written.op taken, List.length_cons, Nat.add_comm]

theorem decoded_texts {ρ : (Register → Option Int64) → Valuation} {d : Decoded} {i : Instruction}
    (denoted : i.Denotes ρ d) :
    d.mnemonic = i.mnemonic.name ∧ d.operandTexts = d.arguments.map Argument.text := by
  cases i with
  | basic written used =>
    obtain ⟨a, b, rfl, _, _⟩ := denoted
    exact ⟨rfl, rfl⟩
  | special written =>
    obtain ⟨a, rfl, _⟩ := denoted
    exact ⟨rfl, rfl⟩

end Instruction

/-- Decoding inverts encoding: of an instruction as it was read, in any state that passes may have
left it in, the words of a finalizing pass decode to its mnemonic, to just those words and to
arguments that denote its operands, whatever follows. The texts that are shown for the arguments
are read as operands that the arguments denote. -/
theorem instruction_decodes {s : Symbols} {line : Line} {i : Instruction} {ctx : Context}
    {position : Int} {words : List UInt16} (read : Instruction.read s line = .ok i.fresh)
    (final : ctx.finalize = true) (emitted : (i.emit false ctx line position).1 = .ok words)
    (rest : List UInt16) :
    ∃ d, decode? (words ++ rest) = some d ∧ d.size = words.length ∧
      (Mnemonic.find? line.first).map Mnemonic.name = some d.mnemonic ∧
      d.operandTexts = d.arguments.map Argument.text ∧
      List.Forall₂ Argument.IsReadFrom d.arguments d.operandTexts ∧
      i.Denotes (ctx.valuation line) d := by
  obtain ⟨found, wellRead⟩ := Instruction.wellRead_of_read read
  rw [Instruction.emit_plain] at emitted
  obtain ⟨d, decoded, size, denoted⟩ := Instruction.decode_encode wellRead final emitted rest
  obtain ⟨mnemonic, texts⟩ := Instruction.decoded_texts denoted
  refine ⟨d, decoded, size, ?_, texts, ?_, denoted⟩
  · rw [found, mnemonic]
    rfl
  · rw [texts, List.forall₂_map_right_iff, List.forall₂_same]
    intro a _
    exact a.isReadFrom_text

-- The label is at 40, so the operand is 38 past the register; the latch does not count here.
theorem instruction_decodes_displaced :
    let line : Line := ⟨["SET", "[end-2+a]", "(sp)"], "", [], "stack", 1⟩
    let ctx : Context :=
      ⟨{ labels := Std.TreeMap.empty.insert "END" ⟨1, 0⟩ }, fun _ => some 40, true⟩
    let i : Instruction := .basic ⟨.set,
      .expression "[end-2+a]" (.binary "+" (.binary "-" (.leaf "end" false) (.number 2 false) false)
        (.leaf "a" false) true) .absent true,
      .ofTree "(sp)" (.leaf "sp" true)⟩ none
    ∃ d, decode? ([0x6D01, 38] ++ [0x7DC1]) = some d ∧ d.size = 2 ∧
      (Mnemonic.find? line.first).map Mnemonic.name = some d.mnemonic ∧
      d.operandTexts = d.arguments.map Argument.text ∧
      List.Forall₂ Argument.IsReadFrom d.arguments d.operandTexts ∧
      i.Denotes (ctx.valuation line) d := by
  intro line ctx i
  have read : Instruction.read ctx.symbols line = .ok i.fresh := ok_of_toOption (by decide +kernel)
  have emitted : (i.emit false ctx line 0).1 = .ok [0x6D01, 38] :=
    ok_of_toOption (by decide +kernel)
  exact instruction_decodes read rfl emitted [0x7DC1]

end WordAsm
