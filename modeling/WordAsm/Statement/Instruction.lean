import WordAsm.Fault
import WordAsm.Machine.Word
import WordAsm.Statement.Operand

/-!
Instructions: operations with their plain encoding, what may replace them, and how they are
emitted.
-/
namespace WordAsm

structure BasicOperation where
  op : BasicOp
  a : Operand
  b : Operand
  deriving DecidableEq, Repr

namespace BasicOperation

def text (i : BasicOperation) : String := i.op.name ++ " " ++ i.a.raw ++ ", " ++ i.b.raw

def lastText (i : BasicOperation) : String :=
  i.op.name ++ " " ++ i.a.lastText ++ ", " ++ i.b.lastText

def fields (ctx : Context) (line : Line) (i : BasicOperation) :
    Except Fault (UInt16 × UInt16) × BasicOperation :=
  match i.a.field ctx line with
  | (.error f, a) => (.error f, { i with a })
  | (.ok codeA, a) =>
    match i.b.field ctx line with
    | (.error f, b) => (.error f, { i with a, b })
    | (.ok codeB, b) => (.ok (codeA, codeB), { i with a, b })

def assemble (i : BasicOperation) (codeA codeB : UInt16) (finalize : Bool) :
    Except Fault (List UInt16) := do
  let extraA ← i.a.extra codeA finalize
  let extraB ← i.b.extra codeB finalize
  return Word.encode i.op.opcode codeA codeB :: (extraA ++ extraB)

/-- The words of the instruction as it is written. -/
def encode (ctx : Context) (line : Line) (i : BasicOperation) :
    Except Fault (List UInt16) × BasicOperation :=
  match i.fields ctx line with
  | (.error f, i) => (.error f, i)
  | (.ok (codeA, codeB), i) => (i.assemble codeA codeB ctx.finalize, i)

end BasicOperation

structure SpecialOperation where
  op : SpecialOp
  a : Operand
  deriving DecidableEq, Repr

namespace SpecialOperation

def lastText (i : SpecialOperation) : String := i.op.name ++ " " ++ i.a.lastText

def assemble (i : SpecialOperation) (code : UInt16) (finalize : Bool) :
    Except Fault (List UInt16) := do
  let extra ← i.a.extra code finalize
  return Word.encode 0 i.op.opcode code :: extra

def encode (ctx : Context) (line : Line) (i : SpecialOperation) :
    Except Fault (List UInt16) × SpecialOperation :=
  match i.a.field ctx line with
  | (.error f, a) => (.error f, { i with a })
  | (.ok code, a) =>
    let i := { i with a }
    (i.assemble code ctx.finalize, i)

end SpecialOperation

end WordAsm

/-!
Peephole substitution: an instruction with a literal is replaced by one that does the same with
a literal short enough to need no word of its own.

    SET PC, v        ADD PC, v - (position + 1)
    ADD x, v         SUB x, -v
    SUB x, v         ADD x, -v
    MUL x, 2^k       SHL x, k
    DIV x, 2^k       SHR x, k
    MOD x, 2^k       AND x, 2^k - 1
-/
namespace WordAsm.BasicOperation

def exponent? (v : UInt16) : Option Nat := (List.range 16).find? fun k => 1 <<< k == v.toNat

def negated (raw : String) (tree : Expr) : Operand :=
  .ofTree ("-(" ++ raw ++ ")") (.unary "-" tree.group false)

def relative (raw : String) (tree : Expr) (next : Int) : Operand :=
  .ofTree ("(" ++ raw ++ ")-" ++ toString next)
    (.binary "-" tree.group (.number (Int64.ofInt next) false) false)

def ofNumber (n : Nat) : Operand := .ofTree (toString n) (.number (Int64.ofNat n) false)

def forLongLiteral (position : Int) (replacing : Option BasicOp) (op : BasicOp) (codeA : UInt16)
    (raw : String) (tree : Expr) : Option (BasicOp × Operand) :=
  match op with
  | .set => if codeA == Field.pc then some (.add, relative raw tree (position + 1)) else none
  | .add => if replacing == some .sub then none else some (.sub, negated raw tree)
  | .sub => if replacing == some .add then none else some (.add, negated raw tree)
  | _ => none

def forPower (op : BasicOp) (k : Nat) : Option (BasicOp × Operand) :=
  match op with
  | .mul => some (.shl, ofNumber k)
  | .div => some (.shr, ofNumber k)
  | .mod => some (.and, ofNumber (1 <<< k - 1))
  | _ => none

def replacement? (position : Int) (replacing : Option BasicOp) (i : BasicOperation)
    (codeA codeB : UInt16) : Option BasicOperation :=
  let powers := ((i.b.constant? codeB).bind exponent?).bind (forPower i.op)
  let literals :=
    if codeB == Field.nextWord then
      match i.b with
      | .expression raw tree _ _ => forLongLiteral position replacing i.op codeA raw tree
      | .fixed .. => none
    else none
  (literals <|> powers).map fun (op, b) => ⟨op, i.a.fresh, b⟩

def isShort (codeA codeB : UInt16) : Bool :=
  !Field.hasNextWord codeA && !Field.hasNextWord codeB

/-- What replaces an instruction, if it takes a single word, with the operation that it replaces. -/
def substitute (ctx : Context) (line : Line) (position : Int) :
    Nat → Option BasicOp → BasicOperation →
      Except Fault (Option (BasicOp × BasicOperation)) × BasicOperation
  | 0, _, i => (.ok none, i)
  | depth + 1, replacing, i =>
    match i.fields ctx line with
    | (.error f, i) => (.error f, i)
    | (.ok (codeA, codeB), i) =>
      match i.replacement? position replacing codeA codeB with
      | none => (.ok none, i)
      | some sub =>
        -- what a rule gives may be replaced in turn: a jump by an addition, that by a subtraction
        match substitute ctx line position depth (some i.op) sub with
        | (.error f, _) => (.error f, i)
        | (.ok next, sub) =>
          let last := next.getD (i.op, sub)
          match last.2.fields ctx line with
          | (.error f, _) => (.error f, i)
          | (.ok (subA, subB), sub) =>
            (.ok (if isShort subA subB then some (last.1, sub) else none), i)

def chainLength : Nat := 3

def encodeFor (ctx : Context) (line : Line) (position : Int) :
    Nat → BasicOp → BasicOperation → Except Fault (List UInt16) × BasicOperation
  | 0, _, i => i.encode ctx line
  | depth + 1, replaced, i =>
    -- the replacement is taken for an instruction of its own, for which one is looked for again
    match i.substitute ctx line position chainLength (some replaced) with
    | (.error f, i) => (.error f, i)
    | (.ok none, i) => i.encode ctx line
    | (.ok (some (replaced, sub)), _) => encodeFor ctx line position depth replaced sub

end WordAsm.BasicOperation

namespace WordAsm

inductive Instruction where
  | basic (written : BasicOperation) (used : Option BasicOperation)
  | special (written : SpecialOperation)
  deriving DecidableEq, Repr

namespace Instruction

/-- Reads an instruction: a mnemonic and as many operands as it takes. -/
def read (s : Symbols) (line : Line) : Except Fault Instruction :=
  match Mnemonic.find? line.first with
  | none => .error (.unknownInstruction line.first)
  | some m =>
    match m, line.operands with
    | .basic op, [a, b] => do
      let a ← Operand.read s line a
      let b ← Operand.read s line b
      return basic ⟨op, a, b⟩ none
    | .special op, [a] => do
      let a ← Operand.read s line a
      return special ⟨op, a⟩
    | _, _ => .error (.tokenCount (.operands m))

def lastText : Instruction → String
  | basic _ (some used) => used.lastText
  | basic written none => written.lastText
  | special written => written.lastText

def emitBasic (optimize : Bool) (ctx : Context) (line : Line) (position : Int)
    (written : BasicOperation) (used : Option BasicOperation) :
    Except Fault (List UInt16) × Instruction × List Note :=
  let plain := fun (written : BasicOperation) used =>
    match written.encode ctx line with
    | (words, written) => (words, basic written used, [])
  if !optimize then plain written used
  else
    match written.substitute ctx line position BasicOperation.chainLength none with
    | (.error f, written) => (.error f, basic written used, [])
    | (.ok none, written) => plain written none
    | (.ok (some (replaced, sub)), written) =>
      match sub.encodeFor ctx line position BasicOperation.chainLength replaced with
      | (.error f, last) => (.error f, basic written (some last), [])
      | (.ok words, last) =>
        (.ok words, basic written (some last),
          [.substituted line.file line.number sub.text written.text words])

def emit (optimize : Bool) (ctx : Context) (line : Line) (position : Int) :
    Instruction → Except Fault (List UInt16) × Instruction × List Note
  | basic written used => emitBasic optimize ctx line position written used
  | special written =>
    match written.encode ctx line with
    | (words, written) => (words, special written, [])

end Instruction

end WordAsm
