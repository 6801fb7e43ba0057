import WordAsm.Proofs.DecodedWords
import WordAsm.Proofs.InstructionFields
import WordAsm.Proofs.Numerals
import WordAsm.Proofs.PlainTexts

/-!
The texts of arguments as operands of the source language. An argument's text is read as an operand
that gives the argument in every pass.
-/
namespace WordAsm

/-! Digits and underscores occur neither in fixed spellings nor in the names of registers. -/

def isFigure (c : Char) : Bool := c.isDigit || c == '_'

theorem Macro.isWordChar_figure {c : Char} (figure : isFigure c = true) :
    isWordChar c = true := by
  simp only [isFigure, Bool.or_eq_true] at figure
  rcases figure with digit | underscore
  · simp [isWordChar, Char.isAlphanum, digit]
  · simp [isWordChar, underscore]

theorem exists_figure (n : Nat) : ∃ c ∈ (toString n).toList, isFigure c = true := by
  obtain ⟨c, cs, digits⟩ := List.exists_cons_of_ne_nil
    (Nat.toDigits_ne_nil : Nat.toDigits 10 n ≠ [])
  have digit : c.isDigit = true :=
    Nat.isDigit_of_mem_toDigits (by decide) (by decide) (digits ▸ List.mem_cons_self)
  refine ⟨c, ?_, by simp [isFigure, digit]⟩
  rw [Nat.toString_eq_ofList_toDigits, String.toList_ofList, digits]
  exact List.mem_cons_self

theorem Text.upperChar_figure {c : Char} (figure : isFigure c = true) : upperChar c = c := by
  have fixed := Macro.forall_wordChar (p := fun c => isFigure c = true → upperChar c = c)
    (by decide) (Macro.isWordChar_figure figure)
  exact fixed figure

theorem Text.foldChar_figure {c : Char} (figure : isFigure c = true) : foldChar c = c := by
  have fixed := Macro.forall_wordChar (p := fun c => isFigure c = true → foldChar c = c)
    (by decide) (Macro.isWordChar_figure figure)
  exact fixed figure

theorem Field.ofText_figure {text : String} {c : Char} (member : c ∈ text.toList)
    (figure : isFigure c = true) : ofText? text = none := by
  cases found : ofText? text with
  | none => rfl
  | some code =>
    have checked : ∀ entry ∈ spellings, ∀ d ∈ entry.1.toList, isFigure d = false := by
      decide +kernel
    have kept : c ∈ (Text.upper (Text.squeeze text)).toList := by
      rw [Text.upper, Text.squeeze, String.toList_ofList, String.toList_ofList]
      refine List.mem_map.2 ⟨c, List.mem_filter.2 ⟨member, ?_⟩, Text.upperChar_figure figure⟩
      rw [Text.isBlank_word (Macro.isWordChar_figure figure)]
      rfl
    rw [checked _ (mem_spellings found) c kept] at figure
    cases figure

theorem isRegister_figure {text : String} {c : Char} (member : c ∈ text.toList)
    (figure : isFigure c = true) : isRegister text = false := by
  have checked : ∀ r ∈ registerNames, ∀ d ∈ r.toList.map Text.foldChar, isFigure d = false := by
    decide +kernel
  rw [isRegister, List.any_eq_false]
  intro r named same
  have folded : c ∈ text.toList.map Text.foldChar :=
    List.mem_map.2 ⟨c, member, Text.foldChar_figure figure⟩
  rw [← (Text.alike_iff r text).1 same] at folded
  rw [checked r named c folded] at figure
  cases figure

namespace Symbols

section

variable (s : Symbols) (line : Line)

theorem simplify_numeral {text : String} {n : Int64} (numeral : Literal.number? text = some n)
    (grouped : Bool) (resolver : Resolver Fault) :
    (Expr.leaf text grouped).simplify resolver = .ok (.number n grouped) := by
  simp only [Expr.simplify, Expr.askSymbol, numeral]

theorem parse_plain {text : String} (plain : Text.IsPlain text.toList) :
    Expr.parse text = .ok (.leaf text false) := by
  rw [Expr.parse, Expr.parseWith_eq, Expr.Parser.parseAt_plain plain, String.ofList_toList]

theorem build_numeral {text : String} {n : Int64} (plain : Text.IsPlain text.toList)
    (numeral : Literal.number? text = some n) : s.build line text = .ok (.number n false) := by
  rw [build, parse_plain plain]
  simp only [simplify_numeral numeral]

theorem build_address {text : String} {n : Int64} (plain : Text.IsPlain text.toList)
    (numeral : Literal.number? text = some n) :
    s.build line ("[" ++ text ++ "]") = .ok (.number n true) := by
  have chars : ("[" ++ text ++ "]").toList = '[' :: text.toList ++ [']'] := by
    rw [String.toList_append, String.toList_append]
    rfl
  have parsed : Expr.parse ("[" ++ text ++ "]") = .ok (.leaf text true) := by
    rw [Expr.parse, Expr.parseWith_eq, chars, Expr.Parser.parseAt_square
      (fun c member => Expr.Parser.isBracket_word (plain.word c member))
      (Expr.Parser.parseAt_plain plain), String.ofList_toList]
    rfl
  rw [build, parsed]
  simp only [simplify_numeral numeral]

theorem simplify_register (r : Register) (resolver : Resolver Fault)
    (quiet : resolver.symbol r.name = .ok none) :
    (Expr.leaf r.name false).simplify resolver = .ok (.leaf r.name false) := by
  have word : Literal.number? r.name = none := by cases r <;> rfl
  simp only [Expr.simplify, Expr.askSymbol, word, quiet]
  rfl

theorem constantsOn_register (r : Register) :
    (s.constantsOn line).symbol r.name = .ok none := by
  have named : isRegister r.name = true := by cases r <;> decide +kernel
  simp only [constantsOn, known, named, if_true]

theorem build_displaced {text : String} {n : Int64} (plain : Text.IsPlain text.toList)
    (numeral : Literal.number? text = some n) (r : Register) :
    s.build line ("[" ++ text ++ "+" ++ r.name ++ "]") =
      .ok (.binary "+" (.number n false) (.leaf r.name false) true) := by
  have chars : ("[" ++ text ++ "+" ++ r.name ++ "]").toList =
      '[' :: (text.toList ++ '+' :: r.name.toList) ++ [']'] := by
    simp only [String.toList_append, List.append_assoc, List.cons_append]
    rfl
  have inner : ∀ c ∈ text.toList ++ '+' :: r.name.toList, Expr.Parser.isBracket c = false := by
    intro c member
    rcases List.mem_append.1 member with member | member
    · exact Expr.Parser.isBracket_word (plain.word c member)
    · rcases List.mem_cons.1 member with rfl | member
      · rfl
      · exact Expr.Parser.isBracket_word ((Text.isPlain_register r).word c member)
  have parsed : Expr.parse ("[" ++ text ++ "+" ++ r.name ++ "]") =
      .ok (.binary "+" (.leaf text false) (.leaf r.name false) true) := by
    rw [Expr.parse, Expr.parseWith_eq, chars, Expr.Parser.parseAt_square inner
      (Expr.Parser.parseAt_sum plain (Text.isPlain_register r)), String.ofList_toList,
      String.ofList_toList]
    rfl
  rw [build, parsed]
  have simplified : (Expr.binary "+" (.leaf text false) (.leaf r.name false) true).simplify
      (s.constantsOn line) = .ok (.binary "+" (.number n false) (.leaf r.name false) true) := by
    rw [Expr.simplify, simplify_numeral numeral,
      simplify_register r _ (constantsOn_register s line r)]
    rfl
  simp only [simplified]

end

end Symbols

namespace Argument

/-- The operand that the text of an argument is read as. -/
def operand (a : Argument) : Operand :=
  match a with
  | displaced w r =>
    .ofTree a.text (.binary "+" (.number (Int64.ofNat w.toNat) false) (.leaf r.name false) true)
  | memory w => .ofTree a.text (.number (Int64.ofNat w.toNat) true)
  | word w | short w => .ofTree a.text (.number (Int64.ofNat w.toNat) false)
  | a => .fixed a.code a.text

theorem read_fixed {text : String} {code : UInt16} (trimmed : Text.trim text = text)
    (found : Field.ofText? text = some code) (s : Symbols) (line : Line) :
    Operand.read s line text = .ok (.fixed code text) := by
  unfold Operand.read
  dsimp only
  rw [trimmed, found]

theorem read_tree {text : String} {tree : Expr} {s : Symbols} {line : Line}
    (trimmed : Text.trim text = text) (open_ : Field.ofText? text = none)
    (built : s.build line text = .ok tree) :
    Operand.read s line text = .ok (.ofTree text tree) := by
  unfold Operand.read
  dsimp only
  rw [trimmed, open_]
  dsimp only
  rw [built]
  rfl

theorem trim_plain {text : String} (plain : Text.IsPlain text.toList) : Text.trim text = text := by
  rw [Text.trim, plain.trimChars, String.ofList_toList]

theorem trim_square (text : String) : Text.trim ("[" ++ text ++ "]") = "[" ++ text ++ "]" := by
  have chars : ("[" ++ text ++ "]").toList = '[' :: text.toList ++ [']'] := by
    simp only [String.toList_append]
    rfl
  rw [Text.trim, Text.trimChars_of_notBlank, String.ofList_toList]
  · rw [chars]
    rfl
  · rw [chars, List.getLast?_append]
    rfl

theorem ofText_literal (w : UInt16) (before after : String) :
    Field.ofText? (before ++ Word.literal w ++ after) = none := by
  have zero : '0' ∈ (before ++ Word.literal w ++ after).toList := by
    simp [Word.literal, String.toList_append]
  exact Field.ofText_figure zero rfl

theorem ofText_toString (n : Nat) : Field.ofText? (toString n) = none := by
  obtain ⟨c, member, figure⟩ := exists_figure n
  exact Field.ofText_figure member figure

/-- The text of an argument is read back as the argument. -/
theorem read_text (a : Argument) (s : Symbols) (line : Line) :
    Operand.read s line a.text = .ok a.operand := by
  cases a with
  | displaced w r =>
    have joined : (displaced w r).text = "[" ++ (Word.literal w ++ "+" ++ r.name) ++ "]" := by
      simp only [text, String.append_assoc]
    have open_ : Field.ofText? (displaced w r).text = none := by
      have found := ofText_literal w "[" ("+" ++ r.name ++ "]")
      simpa only [text, String.append_assoc] using found
    exact read_tree (by rw [joined, trim_square]) open_
      (s.build_displaced line (Text.isPlain_literal w) (Literal.number_literal w) r)
  | memory w =>
    exact read_tree (trim_square _) (ofText_literal w "[" "]")
      (s.build_address line (Text.isPlain_literal w) (Literal.number_literal w))
  | word w =>
    have open_ : Field.ofText? (Word.literal w) = none := by
      simpa using ofText_literal w "" ""
    exact read_tree (trim_plain (Text.isPlain_literal w)) open_
      (s.build_numeral line (Text.isPlain_literal w) (Literal.number_literal w))
  | short v =>
    have bound : v.toNat < 1 <<< 63 := Nat.lt_trans v.toNat_lt (by decide)
    exact read_tree (trim_plain (Text.isPlain_toString _)) (ofText_toString _)
      (s.build_numeral line (Text.isPlain_toString _) (Literal.number_toString bound))
  | register r => cases r <;> exact read_fixed rfl (by decide +kernel) s line
  | indirect r => cases r <;> exact read_fixed rfl (by decide +kernel) s line
  | _ => exact read_fixed rfl (by decide +kernel) s line

end Argument

/-- Whether a literal is in its field exactly if it fits there. -/
def Argument.isShortest : Argument → Bool
  | .word v => Field.maxLiteral < v
  | .short v => v ≤ Field.maxLiteral
  | _ => true

namespace Operand

/-- The operand is the text of an argument as passes may have left it. -/
structure Shows (a : Argument) (o : Operand) : Prop where
  fresh : o.fresh = a.operand
  latched : o.isLatched = true → ∃ w, a = .word w

theorem shows_operand (a : Argument) : a.operand.Shows a := by
  constructor
  · cases a <;> rfl
  · intro latched
    cases a <;> cases latched

theorem exists_expression {o : Operand} {raw : String} {tree : Expr}
    (fresh : o.fresh = ofTree raw tree) :
    ∃ last latched, o = expression raw tree last latched := by
  cases o with
  | fixed code raw => cases fresh
  | expression raw tree last latched =>
    cases fresh
    exact ⟨last, latched, rfl⟩

section

variable {o : Operand} {a : Argument} (ctx : Context) (line : Line)

theorem field_steady {raw : String} {tree last : Expr} {latched : Bool} {code : UInt16}
    (evaluated : ctx.evaluate line tree = .ok tree)
    (classified : fieldOf raw tree latched = .ok code) :
    (expression raw tree last latched).field ctx line =
      (.ok code, expression raw tree tree
        (latched || (ctx.finalize && code == Field.nextWord))) := by
  simp only [field, evaluated, classified]

theorem evaluate_displaced (n : Int64) (r : Register) :
    ctx.evaluate line (.binary "+" (.number n false) (.leaf r.name false) true) =
      .ok (.binary "+" (.number n false) (.leaf r.name false) true) := by
  have named : isRegister r.name = true := by cases r <;> decide +kernel
  have quiet : (ctx.symbols.labelsOn ctx.position ctx.finalize line).symbol r.name = .ok none := by
    simp only [Symbols.labelsOn, Symbols.known, named, if_true]
  have simplified : (Expr.binary "+" (.number n false) (.leaf r.name false) true).simplify
      (ctx.symbols.labelsOn ctx.position ctx.finalize line) =
        .ok (.binary "+" (.number n false) (.leaf r.name false) true) := by
    rw [Expr.simplify, Symbols.simplify_register r _ quiet]
    rfl
  rw [Context.evaluate, simplified]

theorem displacement_register (raw : String) (n : Int64) (r : Register) (finalize : Bool) :
    displacement raw (.binary "+" (.number n false) (.leaf r.name false) true) finalize =
      .ok (lowWord n) := by
  cases r <;> rfl

theorem lowWord_toNat (w : UInt16) : lowWord (Int64.ofNat w.toNat) = w := by
  rw [lowWord_ofNat, UInt16.ofNat_toNat]

theorem field_fixed {code : UInt16} {raw : String} (fresh : o.fresh = fixed code raw) :
    o.field ctx line = (.ok code, o) ∧ o.extra code ctx.finalize = .ok [] := by
  cases o with
  | fixed code' raw' =>
    cases fresh
    exact ⟨rfl, rfl⟩
  | expression raw tree last latched => cases fresh

theorem unlatched_of_shows {raw : String} {tree last : Expr} {latched : Bool}
    (shown : (expression raw tree last latched).Shows a) (other : a.code ≠ Field.nextWord) :
    latched = false := by
  cases latched with
  | false => rfl
  | true =>
    obtain ⟨w, rfl⟩ := shown.latched rfl
    exact absurd rfl other

theorem shows_steady {raw : String} {tree last : Expr} {latched : Bool}
    (shown : (expression raw tree last latched).Shows a) (operand : a.operand = ofTree raw tree)
    (other : a.code ≠ Field.nextWord) (evaluated : ctx.evaluate line tree = .ok tree)
    (classified : fieldOf raw tree false = .ok a.code) :
    (expression raw tree last latched).field ctx line =
        (.ok a.code, expression raw tree tree false) ∧
      (expression raw tree tree false).Shows a := by
  have unlatched := unlatched_of_shows shown other
  subst unlatched
  refine ⟨?_, operand.symm, fun latched => by cases latched⟩
  rw [field_steady ctx line evaluated classified, beq_eq_false_iff_ne.2 other, Bool.and_false,
    Bool.or_self]

theorem fieldOf_bracketed {raw : String} (tree : Expr) (head : raw.toList.head? = some '[')
    (grouped : tree.isGrouped = true) (latched : Bool) :
    fieldOf raw tree latched = bracketField raw tree := by
  rw [fieldOf, isBracketed, head, grouped]
  rfl

theorem fieldOf_number (raw : String) (n : Int64) (latched : Bool) :
    fieldOf raw (.number n false) latched = .ok (literalField (.number n false) latched) := rfl

theorem head_square (text : String) : ("[" ++ text).toList.head? = some '[' := by
  rw [String.toList_append]
  rfl

theorem field_shows (shown : o.Shows a) (shortest : a.isShortest = true) :
    ∃ left, o.field ctx line = (.ok a.code, left) ∧ left.Shows a ∧
      left.extra a.code ctx.finalize = .ok a.extra := by
  have fresh := shown.fresh
  cases a with
  | displaced w r =>
    obtain ⟨last, latched, rfl⟩ := exists_expression fresh
    have head : (Argument.displaced w r).text.toList.head? = some '[' := by
      simp only [Argument.text, String.append_assoc, head_square]
    have classified : fieldOf (Argument.displaced w r).text (.binary "+"
        (.number (Int64.ofNat w.toNat) false) (.leaf r.name false) true) false =
          .ok (Field.displaced + r.index) := by
      rw [fieldOf_bracketed _ head rfl]
      cases r <;> rfl
    have other : Field.displaced + r.index ≠ Field.nextWord := by cases r <;> decide
    obtain ⟨given, left⟩ := shows_steady ctx line shown rfl other
      (evaluate_displaced ctx line _ r) classified
    refine ⟨_, given, left, ?_⟩
    simp only [extra, Argument.code, Field.hasNextWord_displaced, Field.displaced_lt_pop,
      displacement_register, lowWord_toNat, Bool.not_true, Bool.false_eq_true, if_false, if_true,
      Argument.extra]
  | memory w =>
    obtain ⟨last, latched, rfl⟩ := exists_expression fresh
    have head : (Argument.memory w).text.toList.head? = some '[' := by
      simp only [Argument.text, String.append_assoc, head_square]
    have classified : fieldOf (Argument.memory w).text (.number (Int64.ofNat w.toNat) true)
        false = .ok Field.memory := by
      rw [fieldOf_bracketed _ head rfl]
      rfl
    have other : Field.memory ≠ Field.nextWord := by decide
    obtain ⟨given, left⟩ := shows_steady ctx line shown rfl other rfl classified
    refine ⟨_, given, left, ?_⟩
    have low := lowWord_toNat w
    simp only [extra, wordOf, low]
    rfl
  | word w =>
    obtain ⟨last, latched, rfl⟩ := exists_expression fresh
    have large : ¬ w ≤ Field.maxLiteral := by simpa [Argument.isShortest] using shortest
    have classified : fieldOf (Argument.word w).text (.number (Int64.ofNat w.toNat) false)
        latched = .ok Field.nextWord := by
      rw [fieldOf_number, literalField, lowWord_toNat, decide_eq_false large, Bool.and_false]
      rfl
    refine ⟨_, field_steady ctx line rfl classified, ⟨rfl, fun _ => ⟨w, rfl⟩⟩, ?_⟩
    have low := lowWord_toNat w
    simp only [extra, wordOf, low]
    rfl
  | short v =>
    obtain ⟨last, latched, rfl⟩ := exists_expression fresh
    have small : v ≤ Field.maxLiteral := by simpa [Argument.isShortest] using shortest
    have classified : fieldOf (Argument.short v).text (.number (Int64.ofNat v.toNat) false)
        false = .ok (Field.literal + v) := by
      rw [fieldOf_number, literalField, lowWord_toNat, decide_eq_true small]
      rfl
    have alone := (Field.literal_ok small).1
    have other : (Argument.short v).code ≠ Field.nextWord := by
      intro same
      rw [Argument.code] at same
      rw [same] at alone
      cases alone
    obtain ⟨given, left⟩ := shows_steady ctx line shown rfl other rfl classified
    refine ⟨_, given, left, ?_⟩
    simp only [extra, Argument.code, alone, Bool.not_false, if_true, Argument.extra]
  | _ =>
    obtain ⟨classified, given⟩ := field_fixed ctx line fresh
    exact ⟨o, classified, shown, given⟩

end

end Operand

end WordAsm
