import WordAsm.Expr.Simplify
import WordAsm.Symbol.Table

/-!
What symbols mean in the expressions of a line. While lines are read only constants have values;
during layout labels have those of the lines that they mark.
-/
namespace WordAsm

def characterValue? (text : String) : Option Int64 :=
  match text.toList with
  | [opening, c, closing] =>
    if opening == Text.apostrophe && closing == Text.apostrophe && c != '\n' then
      some (Int64.ofNat ((Text.encodeChar c).headD 0).toNat)
    else none
  | _ => none

namespace Symbols

def call (s : Symbols) (line : Line) (fn : String) (argument : Expr) :
    Except Fault (Option Int64) :=
  if Text.alike fn "isdef" then
    match argument.symbol? with
    | some name => .ok (some (if s.isDefined name line.global line.scope then 1 else 0))
    | none => .error (.operand (.isdef argument))
  else .ok none

def known (name : String) (otherwise : Except Fault (Option Int64)) :
    Except Fault (Option Int64) :=
  if isRegister name then .ok none
  else
    match characterValue? name with
    | some v => .ok (some v)
    | none => otherwise

def constantsOn (s : Symbols) (line : Line) : Resolver Fault where
  symbol name := known name (.ok (s.constant? name))
  call := s.call line

def labelValue (s : Symbols) (position : Nat → Option Nat) (finalize : Bool) (line : Line)
    (name : String) : Except Fault (Option Int64) :=
  match s.find? name line.global line.scope with
  | some (key, label) =>
    match position label.line.toNat with
    | some pos => .ok (some (Int64.ofNat pos + label.offset))
    | none => if finalize then .error (.undefinedLabel (.unplaced key)) else .ok none
  | none => if finalize then .error (.undefinedLabel (.unknown name)) else .ok none

def labelsOn (s : Symbols) (position : Nat → Option Nat) (finalize : Bool) (line : Line) :
    Resolver Fault where
  symbol name := known name (s.labelValue position finalize line name)
  call := s.call line

end Symbols

def Fault.ofEval : EvalError Fault → Fault
  | .divisionByZero => .divisionByZero
  | .refused fault => fault

namespace Symbols

def build (s : Symbols) (line : Line) (source : String) : Except Fault Expr :=
  match Expr.parse source with
  | .error e => .error (.parse e)
  | .ok e =>
    match e.simplify (s.constantsOn line) with
    | .ok e => .ok e
    | .error e => .error (.ofEval e)

/-- The value of an expression that has to be a number when its line is read. -/
def literal (s : Symbols) (line : Line) (source : String) : Except Fault Int64 :=
  match s.build line source with
  | .error f => .error f
  | .ok (.number n _) => .ok n
  | .ok e => .error (.notLiteral (.text source e))

end Symbols

/-- What a statement can see when it is emitted. -/
structure Context where
  symbols : Symbols
  position : Nat → Option Nat
  finalize : Bool

namespace Context

def evaluate (ctx : Context) (line : Line) (tree : Expr) : Except Fault Expr :=
  match tree.simplify (ctx.symbols.labelsOn ctx.position ctx.finalize line) with
  | .ok e => .ok e
  | .error e => .error (.ofEval e)

end Context

/-- The low sixteen bits of a number. -/
def lowWord (n : Int64) : UInt16 := n.toUInt64.toUInt16

end WordAsm
