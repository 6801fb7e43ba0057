import WordAsm.Symbol.Lookup

/-!
Values of expressions. `Expr.value` reads a tree as a number where symbols and calls have values
of their own; simplification keeps it under every valuation that gives the answers of the
resolver, so what is left open may be filled in later. During layout the values of symbols are
those of labels, of characters and, where they are given any, of registers.
-/
namespace WordAsm

theorem bind_ok {x : Except ε α} {f : α → Except ε β} {b : β} (bound : x >>= f = .ok b) :
    ∃ a, x = .ok a ∧ f a = .ok b := by
  cases x with
  | error e => cases bound
  | ok a => exact ⟨a, rfl, bound⟩

theorem bind_error {x : Except ε α} {f : α → Except ε β} {e : ε} (failed : x >>= f = .error e) :
    x = .error e ∨ ∃ a, x = .ok a ∧ f a = .error e := by
  cases x with
  | error e' =>
    cases failed
    exact .inl rfl
  | ok a => exact .inr ⟨a, rfl, failed⟩

theorem ok_of_toOption {x : Except ε α} {a : α} (given : x.toOption = some a) : x = .ok a := by
  cases x with
  | error e => cases given
  | ok b =>
    cases given
    rfl

/-- Values of symbols and of calls, as far as they have any. -/
structure Valuation where
  symbol : String → Option Int64
  call : String → Expr → Option Int64

namespace Expr

def combine (op : String) (a b : Int64) : Option Int64 :=
  match (binaryValue op a b : Except (EvalError Empty) (Option Int64)) with
  | .ok v => v
  | .error _ => none

def value (ρ : Valuation) : Expr → Option Int64
  | leaf text _ => (Literal.number? text).or (ρ.symbol text)
  | number n _ => some n
  | unary op e _ => (e.value ρ).bind (unaryValue op)
  | binary op l r _ =>
    ((callee? op l).bind fun fn => ρ.call fn r).or
      ((l.value ρ).bind fun a => (r.value ρ).bind fun b => combine op a b)
  | absent => none

/-- The tree has that value whatever registers hold. -/
def HasValue (ρ : (Register → Option Int64) → Valuation) (e : Expr) (v : Int64) : Prop :=
  ∀ registers, e.value (ρ registers) = some v

theorem binaryValue_ok {op : String} {a b : Int64} {v : Option Int64}
    (folded : (binaryValue op a b : Except (EvalError ε) (Option Int64)) = .ok v) :
    (binaryValue op a b : Except (EvalError ε') (Option Int64)) = .ok v := by
  unfold binaryValue at folded ⊢
  split at folded <;> (try split at folded) <;> simp_all

theorem combine_of_ok {op : String} {a b : Int64} {v : Option Int64}
    (folded : (binaryValue op a b : Except (EvalError ε) (Option Int64)) = .ok v) :
    combine op a b = v := by
  have folded' : (binaryValue op a b : Except (EvalError Empty) (Option Int64)) = .ok v :=
    binaryValue_ok folded
  rw [combine, folded']

theorem value_add {ρ : Valuation} {l r : Expr} {g : Bool} {a b : Int64}
    (left : l.value ρ = some a) (right : r.value ρ = some b) :
    (binary "+" l r g).value ρ = some (a + b) := by
  simp [value, left, right, callee?, callOp, combine, binaryValue]

theorem value_sub {ρ : Valuation} {l r : Expr} {g : Bool} {a b : Int64}
    (left : l.value ρ = some a) (right : r.value ρ = some b) :
    (binary "-" l r g).value ρ = some (a - b) := by
  simp [value, left, right, callee?, callOp, combine, binaryValue]

end Expr

/-- A valuation gives the answers of a resolver; calls that the resolver leaves open have no value
with any argument. -/
structure Valuation.Extends (ρ : Valuation) (resolver : Resolver ε) : Prop where
  symbol : ∀ {text n}, resolver.symbol text = .ok (some n) → ρ.symbol text = some n
  call : ∀ {fn e n}, resolver.call fn e = .ok (some n) → ρ.call fn e = some n
  silent : ∀ {fn e}, resolver.call fn e = .ok none → ∀ e', ρ.call fn e' = none

namespace Expr

theorem answer_ok {asked : Except ε (Option Int64)} {v : Option Int64}
    (answered : answer asked = .ok v) : asked = .ok v := by
  cases asked with
  | ok w => simpa [answer] using answered
  | error reason => simp [answer] at answered

theorem simplify_leaf {resolver : Resolver ε} {text : String} {g : Bool} {e : Expr}
    (simplified : (leaf text g).simplify resolver = .ok e) :
    (∃ n, Literal.number? text = some n ∧ e = number n g) ∨
    (Literal.number? text = none ∧
      ((∃ n, resolver.symbol text = .ok (some n) ∧ e = number n g) ∨
        (resolver.symbol text = .ok none ∧ e = leaf text g))) := by
  simp only [simplify, askSymbol] at simplified
  cases literal : Literal.number? text with
  | some n =>
    rw [literal] at simplified
    cases simplified
    exact .inl ⟨n, rfl, rfl⟩
  | none =>
    rw [literal] at simplified
    obtain ⟨v, asked, simplified⟩ := bind_ok simplified
    have answered := answer_ok asked
    refine .inr ⟨rfl, ?_⟩
    cases v with
    | some n =>
      cases simplified
      exact .inl ⟨n, answered, rfl⟩
    | none =>
      cases simplified
      exact .inr ⟨answered, rfl⟩

theorem simplify_unary {resolver : Resolver ε} {op : String} {operand e : Expr} {g : Bool}
    (simplified : (unary op operand g).simplify resolver = .ok e) :
    ∃ operand', operand.simplify resolver = .ok operand' ∧ e = foldUnary op operand' g := by
  obtain ⟨operand', inner, folded⟩ := bind_ok simplified
  cases folded
  exact ⟨operand', inner, rfl⟩

theorem simplify_binary {resolver : Resolver ε} {op : String} {l r e : Expr} {g : Bool}
    (simplified : (binary op l r g).simplify resolver = .ok e) :
    (∃ fn v, callee? op l = some fn ∧ resolver.call fn r = .ok (some v) ∧ e = number v g) ∨
    ((∀ fn, callee? op l = some fn → resolver.call fn r = .ok none) ∧
      ∃ l' r', l.simplify resolver = .ok l' ∧ r.simplify resolver = .ok r' ∧
        (foldBinary op l' r' g : Except (EvalError ε) Expr) = .ok e) := by
  obtain ⟨v, asked, simplified⟩ := bind_ok simplified
  unfold askCall at asked
  cases v with
  | some v =>
    cases called : callee? op l with
    | none => simp [called] at asked
    | some fn =>
      simp only [called] at asked
      cases simplified
      exact .inl ⟨fn, v, rfl, answer_ok asked, rfl⟩
  | none =>
    refine .inr ⟨?_, ?_⟩
    · intro fn called
      simp only [called] at asked
      exact answer_ok asked
    · obtain ⟨l', left, simplified⟩ := bind_ok simplified
      obtain ⟨r', right, folded⟩ := bind_ok simplified
      exact ⟨l', r', left, right, folded⟩

theorem foldUnary_cases (op : String) (e : Expr) (g : Bool) :
    (∃ b g' v, e = number b g' ∧ unaryValue op b = some v ∧ foldUnary op e g = number v g) ∨
    ((∀ b g', e = number b g' → unaryValue op b = none) ∧ foldUnary op e g = unary op e g) := by
  cases e with
  | number b g' =>
    cases folded : unaryValue op b with
    | some v => exact .inl ⟨b, g', v, rfl, folded, by simp [foldUnary, folded]⟩
    | none =>
      refine .inr ⟨?_, by simp [foldUnary, folded]⟩
      intro b' g'' same
      cases same
      exact folded
  | _ => exact .inr ⟨by simp, rfl⟩

theorem foldBinary_cases {op : String} {l r e : Expr} {g : Bool}
    (folded : (foldBinary op l r g : Except (EvalError ε) Expr) = .ok e) :
    (∃ a ga b gb v, l = number a ga ∧ r = number b gb ∧ combine op a b = some v ∧
      e = number v g) ∨
    ((∀ a ga b gb, l = number a ga → r = number b gb →
      (binaryValue op a b : Except (EvalError ε) (Option Int64)) = .ok none) ∧
      e = binary op l r g) := by
  unfold foldBinary at folded
  split at folded
  · rename_i a ga b gb
    split at folded
    · simp at folded
    · rename_i v known
      exact .inl ⟨a, ga, b, gb, v, rfl, rfl, combine_of_ok known, by simpa [eq_comm] using folded⟩
    · rename_i unknown
      refine .inr ⟨?_, by simpa [eq_comm] using folded⟩
      intro a' ga' b' gb' left right
      cases left
      cases right
      exact unknown
  · rename_i mixed
    refine .inr ⟨?_, by simpa [eq_comm] using folded⟩
    intro a ga b gb left right
    exact absurd right (mixed a ga b gb left)

theorem simplify_congr {resolver resolver' : Resolver ε} (calls : resolver.call = resolver'.call)
    {e : Expr} (agree : ∀ s ∈ e.symbols, resolver.symbol s = resolver'.symbol s) :
    e.simplify resolver = e.simplify resolver' := by
  induction e with
  | leaf text g =>
    simp only [simplify, askSymbol]
    cases literal : Literal.number? text with
    | some n => rfl
    | none => rw [agree text (by simp [symbols, literal])]
  | number n g => rfl
  | unary op e g ih => rw [simplify, simplify, ih agree]
  | binary op l r g ihl ihr =>
    have left := ihl fun s member => agree s (List.mem_append_left _ member)
    have right := ihr fun s member => agree s (List.mem_append_right _ member)
    simp only [simplify, askCall, calls, left, right]
  | absent => rfl

def Yields (resolver : Resolver ε) (e : Expr) (n : Int64) : Prop :=
  ∃ g, e.simplify resolver = .ok (number n g)

theorem yields_unary {resolver : Resolver ε} {op : String} {e : Expr} {g : Bool} {n : Int64}
    (yields : (unary op e g).Yields resolver n) :
    ∃ b, e.Yields resolver b ∧ unaryValue op b = some n := by
  obtain ⟨g', simplified⟩ := yields
  obtain ⟨operand, inner, same⟩ := simplify_unary simplified
  rcases foldUnary_cases op operand g with ⟨b, gb, v, rfl, known, folded⟩ | ⟨_, folded⟩
  · rw [folded] at same
    cases same
    exact ⟨b, ⟨gb, inner⟩, known⟩
  · rw [folded] at same
    cases same

theorem yields_binary {resolver : Resolver ε} {op : String} {l r : Expr} {g : Bool} {n : Int64}
    (uncalled : ∀ fn v, callee? op l = some fn → resolver.call fn r ≠ .ok (some v))
    (yields : (binary op l r g).Yields resolver n) :
    ∃ a b, l.Yields resolver a ∧ r.Yields resolver b ∧ combine op a b = some n := by
  obtain ⟨g', simplified⟩ := yields
  rcases simplify_binary simplified with
    ⟨fn, v, called, answered, _⟩ | ⟨_, l', r', left, right, folded⟩
  · exact absurd answered (uncalled fn v called)
  · rcases foldBinary_cases folded with ⟨a, ga, b, gb, v, rfl, rfl, known, same⟩ | ⟨_, same⟩
    · cases same
      exact ⟨a, b, ⟨ga, left⟩, ⟨gb, right⟩, known⟩
    · cases same

theorem leaf_of_simplify {resolver : Resolver ε} {e : Expr} {text : String} {g : Bool}
    (simplified : e.simplify resolver = .ok (leaf text g)) : e = leaf text g := by
  cases e with
  | leaf text' g' =>
    rcases simplify_leaf simplified with ⟨_, _, same⟩ | ⟨_, ⟨_, _, same⟩ | ⟨_, same⟩⟩ <;> simp_all
  | number n g' => simp [simplify] at simplified
  | unary op e g' =>
    obtain ⟨e', _, same⟩ := simplify_unary simplified
    rcases foldUnary_cases op e' g' with ⟨_, _, _, _, _, folded⟩ | ⟨_, folded⟩ <;> simp_all
  | binary op l r g' =>
    rcases simplify_binary simplified with ⟨_, _, _, _, same⟩ | ⟨_, _, _, _, _, folded⟩
    · simp at same
    · rcases foldBinary_cases folded with ⟨_, _, _, _, _, _, _, _, same⟩ | ⟨_, same⟩ <;>
        simp at same
  | absent => simp [simplify] at simplified

theorem callee_of_simplify {resolver : Resolver ε} {op fn : String} {l l' : Expr}
    (simplified : l.simplify resolver = .ok l') (called : callee? op l' = some fn) :
    callee? op l = some fn := by
  cases l' with
  | leaf text g => rwa [leaf_of_simplify simplified]
  | _ => simp [callee?, symbol?] at called

theorem value_simplify {resolver : Resolver ε} {ρ : Valuation} (extends_ : ρ.Extends resolver)
    {e e' : Expr} (simplified : e.simplify resolver = .ok e') : e'.value ρ = e.value ρ := by
  induction e generalizing e' with
  | leaf text g =>
    rcases simplify_leaf simplified with ⟨n, literal, rfl⟩ | ⟨literal, ⟨n, asked, rfl⟩ | ⟨_, rfl⟩⟩
    · simp [value, literal]
    · simp [value, literal, extends_.symbol asked]
    · rfl
  | number n g =>
    obtain rfl : number n g = e' := by simpa [simplify] using simplified
    rfl
  | unary op e g ih =>
    obtain ⟨operand, inner, rfl⟩ := simplify_unary simplified
    have same := ih inner
    rcases foldUnary_cases op operand g with ⟨b, g', v, rfl, known, folded⟩ | ⟨_, folded⟩
    · rw [folded, value, value, ← same, value, Option.bind_some, known]
    · rw [folded, value, value, same]
  | binary op l r g ihl ihr =>
    rcases simplify_binary simplified with
      ⟨fn, v, called, asked, rfl⟩ | ⟨opened, l', r', left, right, folded⟩
    · simp [value, called, extends_.call asked]
    · have sameLeft := ihl left
      have sameRight := ihr right
      have uncalled : ((callee? op l).bind fun fn => ρ.call fn r) = none := by
        cases called : callee? op l with
        | none => rfl
        | some fn => exact extends_.silent (opened fn called) r
      rcases foldBinary_cases folded with ⟨a, ga, b, gb, v, rfl, rfl, known, rfl⟩ | ⟨_, rfl⟩
      · rw [value, value, uncalled, ← sameLeft, ← sameRight]
        simp [value, known]
      · -- The argument is another tree now, so the answer has to be none for every argument.
        have uncalled' : ((callee? op l').bind fun fn => ρ.call fn r') = none := by
          cases called : callee? op l' with
          | none => rfl
          | some fn => exact extends_.silent (opened fn (callee_of_simplify left called)) r'
        rw [value, value, uncalled, uncalled', sameLeft, sameRight]
  | absent =>
    obtain rfl : absent = e' := by simpa [simplify] using simplified
    rfl

end Expr

namespace Symbols

/-- The values of symbols on a line, where labels and general registers have these. -/
def valuation (s : Symbols) (line : Line) (labelled : String → Label → Option Int64)
    (registers : Register → Option Int64) : Valuation where
  symbol name :=
    if isRegister name then (Register.find? name).bind registers
    else (characterValue? name).or
      ((s.find? name line.global line.scope).bind fun found => labelled found.1 found.2)
  call fn argument :=
    if Text.alike fn "isdef" then
      argument.symbol?.map fun name => if s.isDefined name line.global line.scope then 1 else 0
    else none

end Symbols

def Label.placed (position : Nat → Option Nat) (label : Label) : Option Int64 :=
  (position label.line.toNat).map fun pos => Int64.ofNat pos + label.offset

namespace Context

abbrev resolver (ctx : Context) (line : Line) : Resolver Fault :=
  ctx.symbols.labelsOn ctx.position ctx.finalize line

def valuation (ctx : Context) (line : Line) (registers : Register → Option Int64) : Valuation :=
  ctx.symbols.valuation line (fun _ label => label.placed ctx.position) registers

theorem valuation_extends (ctx : Context) (line : Line) (registers : Register → Option Int64) :
    (ctx.valuation line registers).Extends (ctx.resolver line) := by
  constructor
  · intro name n asked
    simp only [Symbols.labelsOn, Symbols.known] at asked
    simp only [valuation, Symbols.valuation]
    split at asked
    · simp at asked
    · rename_i unnamed
      rw [if_neg unnamed]
      cases character : characterValue? name with
      | some v =>
        rw [character] at asked
        simpa using asked
      | none =>
        rw [character] at asked
        simp only [Symbols.labelValue] at asked
        cases found : ctx.symbols.find? name line.global line.scope with
        | none => cases final : ctx.finalize <;> simp [found, final] at asked
        | some entry =>
          cases placed : ctx.position entry.2.line.toNat with
          | none => cases final : ctx.finalize <;> simp [found, placed, final] at asked
          | some pos => simpa [found, placed, Label.placed] using asked
  · intro fn e n asked
    simp only [Symbols.labelsOn, Symbols.call] at asked
    simp only [valuation, Symbols.valuation]
    split at asked
    · rename_i isdef
      rw [if_pos isdef]
      cases named : e.symbol? with
      | none => simp [named] at asked
      | some name => simpa [named] using asked
    · simp at asked
  · intro fn e asked e'
    simp only [Symbols.labelsOn, Symbols.call] at asked
    simp only [valuation, Symbols.valuation]
    split at asked
    · cases named : e.symbol? with
      | none => simp [named] at asked
      | some name => simp [named] at asked
    · rename_i other
      exact if_neg other

theorem evaluate_ok {ctx : Context} {line : Line} {tree e : Expr}
    (evaluated : ctx.evaluate line tree = .ok e) : tree.simplify (ctx.resolver line) = .ok e := by
  unfold evaluate at evaluated
  split at evaluated
  · rename_i simplified
    cases evaluated
    exact simplified
  · simp at evaluated

theorem evaluate_congr {ctx ctx' : Context} {line : Line} {tree : Expr}
    (symbols : ctx.symbols = ctx'.symbols)
    (agree : ∀ s ∈ tree.symbols,
      (ctx.resolver line).symbol s = (ctx'.resolver line).symbol s) :
    ctx.evaluate line tree = ctx'.evaluate line tree := by
  have calls : (ctx.resolver line).call = (ctx'.resolver line).call := by
    simp only [Symbols.labelsOn, symbols]
  rw [evaluate, evaluate, Expr.simplify_congr calls agree]

theorem value_evaluate {ctx : Context} {line : Line} {tree e : Expr}
    (evaluated : ctx.evaluate line tree = .ok e) (registers : Register → Option Int64) :
    e.value (ctx.valuation line registers) = tree.value (ctx.valuation line registers) :=
  Expr.value_simplify (ctx.valuation_extends line registers) (evaluate_ok evaluated)

theorem hasValue_of_yields {ctx : Context} {line : Line} {tree : Expr} {n : Int64}
    (yields : tree.Yields (ctx.resolver line) n) : tree.HasValue (ctx.valuation line) n := by
  obtain ⟨g, simplified⟩ := yields
  intro registers
  rw [← Expr.value_simplify (ctx.valuation_extends line registers) simplified]
  rfl

theorem hasValue_of_evaluate {ctx : Context} {line : Line} {tree : Expr} {n : Int64} {g : Bool}
    (evaluated : ctx.evaluate line tree = .ok (.number n g)) :
    tree.HasValue (ctx.valuation line) n :=
  hasValue_of_yields ⟨g, evaluate_ok evaluated⟩

end Context

theorem lowWord_add (a b : Int64) : lowWord (a + b) = lowWord a + lowWord b := by
  simp [lowWord, Int64.toUInt64_add, UInt64.toUInt16_add]

theorem lowWord_neg (a : Int64) : lowWord (-a) = -lowWord a := by simp [lowWord]

theorem lowWord_sub (a b : Int64) : lowWord (a - b) = lowWord a - lowWord b := by simp [lowWord]

theorem lowWord_ofNat (n : Nat) : lowWord (Int64.ofNat n) = UInt16.ofNat n := by simp [lowWord]

end WordAsm
