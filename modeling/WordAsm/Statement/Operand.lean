import WordAsm.Expr.Simplify
import WordAsm.Machine.Argument
import WordAsm.Symbol.Lookup

/-!
Operands of instructions. An operand is a fixed spelling or an expression, which every pass
simplifies anew. A literal that once took a word of its own in a finalizing pass keeps it, so
that instructions do not shrink again.
-/
namespace WordAsm

inductive Operand where
  | fixed (code : UInt16) (raw : String)
  /-- `last` is the tree as it was last simplified. -/
  | expression (raw : String) (tree last : Expr) (latched : Bool)
  deriving DecidableEq, Repr

namespace Operand

/-- Reads an operand on a line. -/
def read (s : Symbols) (line : Line) (token : String) : Except Fault Operand :=
  let raw := Text.trim token
  match Field.ofText? raw with
  | some code => .ok (fixed code raw)
  | none =>
    match s.build line raw with
    | .ok tree => .ok (expression raw tree tree false)
    | .error f => .error f

def ofTree (raw : String) (tree : Expr) : Operand := expression raw tree tree false

/-- The operand as no pass has seen it. -/
def fresh : Operand → Operand
  | fixed code raw => fixed code raw
  | expression raw tree _ _ => ofTree raw tree

def raw : Operand → String
  | fixed _ raw | expression raw _ _ _ => raw

def lastText : Operand → String
  | fixed _ raw => raw
  | expression _ _ last _ => last.text

def isLatched : Operand → Bool
  | fixed .. => false
  | expression _ _ _ latched => latched

def firstRegister? (tree : Expr) : Option String := (tree.symbols.find? isRegister).map Text.upper

def isBracketed (raw : String) (tree : Expr) : Bool :=
  tree.isGrouped && raw.toList.head? == some '['

def bracketField (raw : String) (tree : Expr) : Except Fault UInt16 :=
  match firstRegister? tree with
  | none => .ok Field.memory
  | some name =>
    match Register.find? name with
    | none => .error (.registerForm (.reserved name raw))
    | some r => .ok ((if tree.isSymbol then Field.indirect else Field.displaced) + r.index)

def registerField (raw : String) (tree : Expr) (name : String) : Except Fault UInt16 :=
  if tree.symbol?.any fun s => Text.alike s name then .ok ((Field.ofText? name).getD 0)
  else .error (.operand (.register raw tree))

def literalField (tree : Expr) (latched : Bool) : UInt16 :=
  match tree with
  | .number n _ =>
    if !latched && lowWord n ≤ Field.maxLiteral then Field.literal + lowWord n else Field.nextWord
  | _ => Field.nextWord

def fieldOf (raw : String) (tree : Expr) (latched : Bool) : Except Fault UInt16 :=
  if isBracketed raw tree then bracketField raw tree
  else
    match firstRegister? tree with
    | some name => registerField raw tree name
    | none => .ok (literalField tree latched)

/-- The field of an operand, and the operand as this pass leaves it. -/
def field (ctx : Context) (line : Line) (o : Operand) : Except Fault UInt16 × Operand :=
  match o with
  | fixed code _ => (.ok code, o)
  | expression raw tree _ latched =>
    match ctx.evaluate line tree with
    | .error f => (.error f, o)
    | .ok last =>
      match fieldOf raw last latched with
      | .error f => (.error f, expression raw tree last latched)
      | .ok code =>
        (.ok code, expression raw tree last (latched || (ctx.finalize && code == Field.nextWord)))

def besideRegister? (name : String) : Expr → Option Expr
  | .binary op l r _ =>
    if op != "+" then none
    else if l.symbol?.any fun s => Text.alike s name then some r
    else some l
  | _ => none

def displacement (raw : String) (tree : Expr) (finalize : Bool) : Except Fault UInt16 :=
  match tree.symbols.filter fun s => (Register.find? s).isSome with
  | [name] =>
    match (Expr.bringToTop .standard tree.commutable name).bind (besideRegister? name) with
    | none => .error (.registerForm (.shape raw tree))
    | some (.number n _) => .ok (lowWord n)
    | some other => if finalize then .error (.notLiteral (.part other raw)) else .ok 0
  | names => .error (.registerForm (.count names.length raw tree))

def wordOf (raw : String) (tree : Expr) (finalize : Bool) : Except Fault UInt16 :=
  match tree with
  | .number n _ => .ok (lowWord n)
  | _ => if finalize then .error (.notLiteral (.text raw tree)) else .ok 0

def extra (o : Operand) (code : UInt16) (finalize : Bool) : Except Fault (List UInt16) :=
  match o with
  | fixed .. => .ok []
  | expression raw _ last _ =>
    if !Field.hasNextWord code then .ok []
    else
      let word :=
        if code < Field.pop then displacement raw last finalize else wordOf raw last finalize
      match word with
      | .ok w => .ok [w]
      | .error f => .error f

def constant? (o : Operand) (code : UInt16) : Option UInt16 :=
  if Field.literal ≤ code then some (code - Field.literal)
  else if code == Field.nextWord then
    match o with
    | expression _ _ (.number n _) _ => some (lowWord n)
    | _ => none
  else none

end Operand

end WordAsm
