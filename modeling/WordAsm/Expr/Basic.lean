import WordAsm.Text.Case

/-!
Expression trees and their number literals. A leaf is a text, which may be a literal not yet read,
or a number; an operator stands before one operand or between two. `grouped` marks what stood in
brackets of its own. An `absent` operand is the empty tree.
-/
namespace WordAsm

/-- Literals are decimal, which must fit a signed 64-bit integer, or hexadecimal after `0x`, whose
64 bits are taken as they are. -/
inductive Literal where
  | value (n : Int64)
  /-- Digits of a number that does not fit, with the closest one that does. -/
  | tooLarge (closest : Int64)
  | noNumber
  deriving DecidableEq, Repr

namespace Literal

def digit? (c : Char) : Option Nat :=
  if '0' ≤ c && c ≤ '9' then some (c.toNat - '0'.toNat) else none

def hexDigit? (c : Char) : Option Nat :=
  if '0' ≤ c && c ≤ '9' then some (c.toNat - '0'.toNat)
  else if 'a' ≤ c && c ≤ 'f' then some (c.toNat - 'a'.toNat + 10)
  else if 'A' ≤ c && c ≤ 'F' then some (c.toNat - 'A'.toNat + 10)
  else none

def digitsFrom (base : Nat) (digit? : Char → Option Nat) : Nat → List Char → Option Nat
  | n, [] => some n
  | n, c :: rest =>
    match digit? c with
    | some d => digitsFrom base digit? (n * base + d) rest
    | none => none

def digits (base : Nat) (digit? : Char → Option Nat) : List Char → Option Nat
  | [] => none
  | cs => digitsFrom base digit? 0 cs

def ofDecimal (n : Nat) : Literal :=
  if n < 1 <<< 63 then value (Int64.ofNat n) else tooLarge Int64.maxValue

def ofHex (n : Nat) : Literal :=
  if n < 1 <<< 64 then value (Int64.ofNat n) else tooLarge (-1)

def readHex : List Char → Option Nat
  | '0' :: x :: rest => if x == 'x' || x == 'X' then digits 16 hexDigit? rest else none
  | _ => none

def readChars (cs : List Char) : Literal :=
  match digits 10 digit? cs with
  | some n => ofDecimal n
  | none =>
    match readHex cs with
    | some n => ofHex n
    | none => noNumber

def read (text : String) : Literal := readChars text.toList

def number? (text : String) : Option Int64 :=
  match read text with
  | value n => some n
  | _ => none

end Literal

inductive Expr where
  | leaf (text : String) (grouped : Bool)
  | number (value : Int64) (grouped : Bool)
  | unary (op : String) (operand : Expr) (grouped : Bool)
  | binary (op : String) (left right : Expr) (grouped : Bool)
  | absent
  deriving DecidableEq, Repr, Inhabited

namespace Expr

def callOp : String := "call"

def isLeaf : Expr → Bool
  | leaf .. | number .. => true
  | _ => false

def isUnary : Expr → Bool
  | unary .. => true
  | _ => false

def symbol? : Expr → Option String
  | leaf text _ => if (Literal.number? text).isSome then none else some text
  | _ => none

def isSymbol (e : Expr) : Bool := e.symbol?.isSome

def isNumber : Expr → Bool
  | number .. => true
  | _ => false

def isGrouped : Expr → Bool
  | leaf _ g | number _ g | unary _ _ g | binary _ _ _ g => g
  | absent => false

def group : Expr → Expr
  | leaf text _ => leaf text true
  | number n _ => number n true
  | unary op e _ => unary op e true
  | binary op l r _ => binary op l r true
  | absent => absent

/-- The tree with brackets around every operator. -/
def text : Expr → String
  | leaf text _ => text
  | number n _ => toString n
  | unary op e _ => "(" ++ op ++ " " ++ e.text ++ ")"
  | binary op l r _ => "(" ++ l.text ++ " " ++ op ++ " " ++ r.text ++ ")"
  | absent => ""

/-- The symbols of the tree from left to right. -/
def symbols : Expr → List String
  | leaf text _ => if (Literal.number? text).isSome then [] else [text]
  | number .. => []
  | unary _ e _ => e.symbols
  | binary _ l r _ => l.symbols ++ r.symbols
  | absent => []

/-- How often a symbol occurs, in any case. -/
def count (e : Expr) (name : String) : Nat := e.symbols.countP fun s => Text.alike s name

def mentions (e : Expr) (name : String) : Bool := 0 < e.count name

end Expr

end WordAsm
