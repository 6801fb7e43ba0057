import WordAsm.Text.Basic
import WordAsm.Text.Case

/-!
Instruction words and memory images. An instruction word holds the opcode in its low four bits,
then two operand fields of six bits. Images are stored with the high byte first.
-/
namespace WordAsm.Word

def opcodeMask : UInt16 := 0xF
def fieldMask : UInt16 := 0x3F

def encode (op a b : UInt16) : UInt16 :=
  (op &&& opcodeMask) ||| ((a &&& fieldMask) <<< 4) ||| ((b &&& fieldMask) <<< 10)

def opcode (w : UInt16) : UInt16 := w &&& opcodeMask
def first (w : UInt16) : UInt16 := (w >>> 4) &&& fieldMask
def second (w : UInt16) : UInt16 := (w >>> 10) &&& fieldMask

def ofPair (high low : UInt8) : UInt16 := (high.toUInt16 <<< 8) ||| low.toUInt16

def toBytes (words : List UInt16) : List UInt8 :=
  words.flatMap fun (w : UInt16) => [(w >>> 8).toUInt8, w.toUInt8]

/-- An odd last byte is the high half of its word. -/
def ofBytes : List UInt8 → List UInt16
  | [] => []
  | [high] => [ofPair high 0]
  | high :: low :: rest => ofPair high low :: ofBytes rest

def hex (w : UInt16) : String := Text.hex 4 w.toNat

def hexAll (words : List UInt16) : String := " ".intercalate (words.map hex)

/-- A word as a literal of the source language. -/
def literal (w : UInt16) : String := "0x" ++ hex w

end WordAsm.Word

/-!
The instruction set: fifteen basic instructions of two operands, and the special ones of a
single operand, whose opcode stands in the field of the first operand.
-/
namespace WordAsm

inductive BasicOp where
  | set | add | sub | mul | div | mod | shl | shr | and | bor | xor | ife | ifn | ifg | ifb
  deriving DecidableEq, Repr

inductive SpecialOp where
  | jsr
  deriving DecidableEq, Repr

namespace BasicOp

def all : List BasicOp :=
  [set, add, sub, mul, div, mod, shl, shr, and, bor, xor, ife, ifn, ifg, ifb]

def opcode : BasicOp → UInt16
  | set => 0x1 | add => 0x2 | sub => 0x3 | mul => 0x4 | div => 0x5
  | mod => 0x6 | shl => 0x7 | shr => 0x8 | and => 0x9 | bor => 0xA
  | xor => 0xB | ife => 0xC | ifn => 0xD | ifg => 0xE | ifb => 0xF

def name : BasicOp → String
  | set => "SET" | add => "ADD" | sub => "SUB" | mul => "MUL" | div => "DIV"
  | mod => "MOD" | shl => "SHL" | shr => "SHR" | and => "AND" | bor => "BOR"
  | xor => "XOR" | ife => "IFE" | ifn => "IFN" | ifg => "IFG" | ifb => "IFB"

def ofOpcode? (code : UInt16) : Option BasicOp := all.find? (·.opcode == code)

/-- Skips the next instruction unless its condition holds. -/
def isConditional : BasicOp → Bool
  | ife | ifn | ifg | ifb => true
  | _ => false

end BasicOp

namespace SpecialOp

def all : List SpecialOp := [jsr]

def opcode : SpecialOp → UInt16
  | jsr => 0x01

def name : SpecialOp → String
  | jsr => "JSR"

def ofOpcode? (code : UInt16) : Option SpecialOp := all.find? (·.opcode == code)

end SpecialOp

inductive Mnemonic where
  | basic (op : BasicOp)
  | special (op : SpecialOp)
  deriving DecidableEq, Repr

namespace Mnemonic

def all : List Mnemonic := BasicOp.all.map basic ++ SpecialOp.all.map special

def name : Mnemonic → String
  | basic op => op.name
  | special op => op.name

def opcode : Mnemonic → UInt16
  | basic op => op.opcode
  | special op => op.opcode

def isSpecial : Mnemonic → Bool
  | basic _ => false
  | special _ => true

def operandCount : Mnemonic → Nat
  | basic _ => 2
  | special _ => 1

/-- The mnemonic of that name in any case. -/
def find? (text : String) : Option Mnemonic :=
  let key := Text.upper text
  all.find? (·.name == key)

end Mnemonic

end WordAsm
