import WordAsm.Fault
import WordAsm.Symbol.Lookup

/-!
Padding: `.FILL` repeats a value, `.ALIGN` goes on with zeros to the next multiple of a boundary.
In a finalizing pass neither is shorter than it was in the pass before.
-/
namespace WordAsm

/-- `last` holds what was last simplified: nothing, the length, or the length and the value. -/
structure Fill where
  length : Expr
  value : Option Expr
  last : List Expr
  deriving DecidableEq, Repr

structure Align where
  boundary : Expr
  last : Expr
  deriving DecidableEq, Repr

namespace Padding

/-- As many words as can be allocated at once. -/
def maxWords : Nat := 1 <<< 47

def copies (n : Nat) (word : UInt16) : Except Fault (Option (List UInt16)) :=
  if maxWords < n then .error (.breakdown .allocation) else .ok (some (List.replicate n word))

end Padding

namespace Fill

def read (s : Symbols) (line : Line) : Except Fault Fill :=
  match line.operands with
  | [length] => do
    let length ← s.build line length
    return ⟨length, none, []⟩
  | [length, value] => do
    let length ← s.build line length
    let value ← s.build line value
    return ⟨length, some value, []⟩
  | _ => .error (.tokenCount .fill)

def lastText (line : Line) (f : Fill) : String := joinTokens (line.first :: f.last.map Expr.text)

/-- The value of a tree, which is zero while it is not known, and the simplified tree. -/
def evaluate (ctx : Context) (line : Line) (tree : Expr) : Except Fault (Int64 × Expr) :=
  match ctx.evaluate line tree with
  | .error f => .error f
  | .ok e =>
    match e with
    | .number n _ => .ok (n, e)
    | _ => if ctx.finalize then .error (.notLiteral (.tree e)) else .ok (0, e)

def settle (ctx : Context) (line : Line) (old : Option Nat) (n : Nat) : Nat × List Note :=
  match old with
  | some size =>
    if ctx.finalize && n < size then (size, [.shrinkingFill line.file line.number size n])
    else (n, [])
  | none => (n, [])

def emit (ctx : Context) (line : Line) (old : Option Nat) (f : Fill) :
    Except Fault (Option (List UInt16)) × Fill × List Note :=
  match evaluate ctx line f.length with
  | .error e => (.error e, f, [])
  | .ok (n, length) =>
    let f := { f with last := [length] }
    if n < 0 then (.error (.operand (.fillLength n)), f, [])
    else
      let (size, notes) := settle ctx line old n.toInt.toNat
      match f.value with
      | none => (Padding.copies size 0, f, notes)
      | some tree =>
        match evaluate ctx line tree with
        | .error e => (.error e, f, notes)
        | .ok (v, value) =>
          (Padding.copies size (lowWord v), { f with last := [length, value] }, notes)

end Fill

namespace Align

def read (s : Symbols) (line : Line) : Except Fault Align :=
  match line.operands with
  | [boundary] => do
    let boundary ← s.build line boundary
    return ⟨boundary, boundary⟩
  | _ => .error (.tokenCount (.tokens 2 line.tokens.length))

def lastText (line : Line) (a : Align) : String := joinTokens [line.first, a.last.text]

def gap (boundary : Nat) (position : Int) : Nat := ((-position) % boundary).toNat

def atLeast (boundary n size : Nat) : Nat := n + (size - n + boundary - 1) / boundary * boundary

def size (ctx : Context) (old : Option Nat) (boundary : Nat) (position : Int) : Nat :=
  let n := gap boundary position
  match old with
  | some least => if ctx.finalize then atLeast boundary n least else n
  | none => n

def emit (ctx : Context) (line : Line) (position : Int) (old : Option Nat) (a : Align) :
    Except Fault (Option (List UInt16)) × Align :=
  match ctx.evaluate line a.boundary with
  | .error f => (.error f, a)
  | .ok last =>
    let a := { a with last }
    match last with
    | .number n _ =>
      if n ≤ 0 then (.error (.operand (.alignment n)), a)
      else (Padding.copies (size ctx old n.toInt.toNat position) 0, a)
    | _ => if ctx.finalize then (.error (.notLiteral (.tree last)), a) else (.ok (some []), a)

end Align

end WordAsm
