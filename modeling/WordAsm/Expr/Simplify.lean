import WordAsm.Expr.Basic
import WordAsm.Expr.Precedence

/-!
Simplification folds every operator whose operands are numbers. Symbols and calls are put to a
`Resolver`, which may leave them open; a division by zero and a refusal of the resolver stop it.
-/
namespace WordAsm

structure Resolver (ε : Type) where
  symbol : String → Except ε (Option Int64)
  call : String → Expr → Except ε (Option Int64)

def Resolver.silent : Resolver ε := ⟨fun _ => .ok none, fun _ _ => .ok none⟩

inductive EvalError (ε : Type) where
  | divisionByZero
  | refused (reason : ε)
  deriving DecidableEq, Repr

namespace Expr

def truth (b : Bool) : Int64 := if b then 1 else 0

def unaryValue (op : String) (b : Int64) : Option Int64 :=
  match op with
  | "!" => some (truth (b == 0))
  | "+" => some b
  | "-" => some (-b)
  | "~" => some (~~~b)
  | _ => none

/-- The value of an operator between numbers; the outer level fails on a zero divisor, the
inner one on an operator that has no value. -/
def binaryValue (op : String) (a b : Int64) : Except (EvalError ε) (Option Int64) :=
  match op with
  | "+" => .ok (some (a + b))
  | "-" => .ok (some (a - b))
  | "*" => .ok (some (a * b))
  | "/" => if b == 0 then .error .divisionByZero else .ok (some (a / b))
  | "%" => if b == 0 then .error .divisionByZero else .ok (some (a % b))
  | "<<" => .ok (some (a <<< (b &&& 63)))
  | ">>" => .ok (some (a >>> (b &&& 63)))
  | "<" => .ok (some (truth (a < b)))
  | ">" => .ok (some (truth (a > b)))
  | "<=" => .ok (some (truth (a ≤ b)))
  | ">=" => .ok (some (truth (a ≥ b)))
  | "==" => .ok (some (truth (a == b)))
  | "!=" | "<>" => .ok (some (truth (a != b)))
  | "&" => .ok (some (a &&& b))
  | "^" => .ok (some (a ^^^ b))
  | "|" => .ok (some (a ||| b))
  | "&&" => .ok (some (truth (a != 0 && b != 0)))
  | "||" => .ok (some (truth (a != 0 || b != 0)))
  | "^^" => .ok (some (truth ((a != 0) != (b != 0))))
  | _ => .ok none

def callee? (op : String) (left : Expr) : Option String :=
  if op == callOp then left.symbol? else none

def answer : Except ε (Option Int64) → Except (EvalError ε) (Option Int64)
  | .ok v => .ok v
  | .error reason => .error (.refused reason)

def foldUnary (op : String) (e : Expr) (grouped : Bool) : Expr :=
  match e with
  | number b _ =>
    match unaryValue op b with
    | some v => number v grouped
    | none => unary op e grouped
  | _ => unary op e grouped

def foldBinary (op : String) (l r : Expr) (grouped : Bool) : Except (EvalError ε) Expr :=
  match l, r with
  | number a _, number b _ =>
    match binaryValue op a b with
    | .error e => .error e
    | .ok (some v) => .ok (number v grouped)
    | .ok none => .ok (binary op l r grouped)
  | _, _ => .ok (binary op l r grouped)

def askCall (resolver : Resolver ε) (op : String) (l r : Expr) :
    Except (EvalError ε) (Option Int64) :=
  match callee? op l with
  | some fn => answer (resolver.call fn r)
  | none => .ok none

def askSymbol (resolver : Resolver ε) (text : String) (grouped : Bool) :
    Except (EvalError ε) Expr :=
  match Literal.number? text with
  | some n => .ok (number n grouped)
  | none => do
    match ← answer (resolver.symbol text) with
    | some n => return number n grouped
    | none => return leaf text grouped

def simplify (resolver : Resolver ε) : Expr → Except (EvalError ε) Expr
  | leaf text g => askSymbol resolver text g
  | number n g => .ok (number n g)
  | unary op e g => do return foldUnary op (← simplify resolver e) g
  | binary op l r g => do
    match ← askCall resolver op l r with
    | some v => return number v g
    | none =>
      let left ← simplify resolver l
      let right ← simplify resolver r
      foldBinary op left right g
  | absent => .ok absent

def reduce (e : Expr) : Expr :=
  match e.simplify (Resolver.silent : Resolver Empty) with
  | .ok s => s
  | .error _ => e

inductive Question where
  | symbol (text : String)
  | call (fn : String) (argument : Expr)
  deriving DecidableEq, Repr

def Question.text : Question → String
  | symbol text => text
  | call fn argument => fn ++ "(" ++ argument.text ++ ")"

def questions (resolver : Resolver ε) : Expr → List Question
  | leaf text _ => if (Literal.number? text).isSome then [] else [.symbol text]
  | number .. => []
  | unary _ e _ => questions resolver e
  | binary op l r _ =>
    let operands := questions resolver l ++
      match simplify resolver l with
      | .ok _ => questions resolver r
      | .error _ => []
    match callee? op l with
    | none => operands
    | some fn =>
      .call fn r ::
        match resolver.call fn r with
        | .ok none => operands
        | _ => []
  | absent => []

end Expr

end WordAsm

/-!
Rearrangement of sums and products. `commutable` writes differences as sums and quotients as
products, and `bringToTop` rotates a symbol up until it is an operand of the root.
-/
namespace WordAsm.Expr

/-- `a - b` becomes `a + (-b)` and `a / b` becomes `a * (1 / b)`, at every depth. -/
def commutable : Expr → Expr
  | unary op e g => unary op e.commutable g
  | binary op l r g =>
    if op == "-" then binary "+" l.commutable (reduce (unary "-" r.commutable false)) g
    else if op == "/" then
      binary "*" l.commutable (reduce (binary "/" (number 1 false) r.commutable false)) g
    else binary op l.commutable r.commutable g
  | e => e

def isCommutative (op : String) : Bool := ["+", "*", "==", "!=", "<>"].contains op

def isAssociative (op : String) : Bool := ["+", "*", "&", "|", "^", "&&", "||"].contains op

def rotate (grammar : Grammar) (op : String) (grouped : Bool) (name : String) (onLeft : Bool)
    (top other : Expr) : Option Expr :=
  match top with
  | binary topOp l r _ =>
    let first := l.isLeaf && l.mentions name
    if grammar.group? topOp != grammar.group? op || topOp != op || !isAssociative op then none
    else if !(onLeft && first) && !isCommutative op then none
    else if first then some (binary op l (reduce (binary op r other false)) grouped)
    else some (binary op r (reduce (binary op l other false)) grouped)
  | _ => none

def bring (grammar : Grammar) (name : String) : Expr → Option Expr
  | leaf text g =>
    match (leaf text g).symbol? with
    | some s => if Text.alike s name then some (leaf text g) else none
    | none => none
  | binary op l r g =>
    if op == callOp then none
    else if l.mentions name then
      match bring grammar name l with
      | none => none
      | some top =>
        if top.isLeaf then some (binary op l r g) else rotate grammar op g name true top r
    else
      match bring grammar name r with
      | none => none
      | some top =>
        if top.isLeaf then some (binary op l r g) else rotate grammar op g name false top l
  | _ => none

/-- Rearranges a tree that mentions a symbol exactly once so that the symbol is the tree or an
operand of its root. Only equal associative operators of one group of the table rotate, and only
commutative ones swap their sides. -/
def bringToTop (grammar : Grammar) (e : Expr) (name : String) : Option Expr :=
  if e.count name == 1 then bring grammar name e else none

end WordAsm.Expr
