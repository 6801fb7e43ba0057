import WordAsm.Machine.Argument
import WordAsm.Machine.Word

/-!
Decoding of instructions. A word that does not begin a complete instruction is read as data.
-/
namespace WordAsm

inductive Decoded where
  | basic (op : BasicOp) (a b : Argument)
  | special (op : SpecialOp) (a : Argument)
  | raw (word : UInt16)
  deriving DecidableEq, Repr, Inhabited

inductive Transfer where
  | call
  | jump
  deriving DecidableEq, Repr

def addressSpace : Nat := 0x10000

namespace Decoded

def operand? (code : UInt16) (rest : List UInt16) : Option (Argument × List UInt16) :=
  if Field.hasNextWord code then
    match rest with
    | next :: rest => some (.ofField code next, rest)
    | [] => none
  else some (.ofField code 0, rest)

def special? (w : UInt16) (rest : List UInt16) : Option Decoded := do
  let op ← SpecialOp.ofOpcode? (Word.first w)
  let (a, _) ← operand? (Word.second w) rest
  return special op a

def basic? (w : UInt16) (rest : List UInt16) : Option Decoded := do
  let op ← BasicOp.ofOpcode? (Word.opcode w)
  let (a, rest) ← operand? (Word.first w) rest
  let (b, _) ← operand? (Word.second w) rest
  return basic op a b

def ofWords (w : UInt16) (rest : List UInt16) : Decoded :=
  (if Word.opcode w == 0 then special? w rest else basic? w rest).getD (raw w)

def arguments : Decoded → List Argument
  | basic _ a b => [a, b]
  | special _ a => [a]
  | raw _ => []

/-- The number of words of the instruction. -/
def size (d : Decoded) : Nat := 1 + (d.arguments.flatMap Argument.extra).length

def mnemonic : Decoded → String
  | basic op _ _ => op.name
  | special op _ => op.name
  | raw _ => "DAT"

def operandTexts : Decoded → List String
  | raw w => [Word.literal w]
  | d => d.arguments.map Argument.text

def writesPC : Decoded → Bool
  | basic op .pc _ => !op.isConditional
  | _ => false

def isConditional : Decoded → Bool
  | basic op _ _ => op.isConditional
  | _ => false

def isTerminal : Decoded → Bool
  | raw _ => true
  | d => d.writesPC

def target? (address : Nat) (d : Decoded) : Option (Nat × Transfer) :=
  let after := address + d.size
  match d with
  | special .jsr a => a.literal?.map fun v => (v.toNat, .call)
  | basic .set .pc b => b.literal?.map fun v => (v.toNat, .jump)
  | basic .add .pc b => b.literal?.map fun v => ((after + v.toNat) % addressSpace, .jump)
  | basic .sub .pc b =>
    b.literal?.map fun v => ((after + addressSpace - v.toNat) % addressSpace, .jump)
  | _ => none

end Decoded

def decode? : List UInt16 → Option Decoded
  | [] => none
  | w :: rest => some (.ofWords w rest)

/-!
Control flow through an image, from address 0. An address is code if it can be reached; targets
of calls and jumps get labels, and that of a call wins over that of a jump.
-/

def decodeAll : List UInt16 → List Decoded
  | [] => []
  | w :: rest => .ofWords w rest :: decodeAll rest

namespace Flow

def skip? (image : Array Decoded) (address : Nat) (d : Decoded) : Option Nat :=
  if d.isConditional then
    (image[address + d.size]?).map fun skipped => address + d.size + skipped.size
  else none

def next? (address : Nat) (d : Decoded) : Option Nat :=
  if d.isTerminal then none else some (address + d.size)

def target? (image : Array Decoded) (address : Nat) (d : Decoded) : Option (Nat × Transfer) :=
  (d.target? address).filter fun t => t.1 < image.size

def successors (image : Array Decoded) (address : Nat) (d : Decoded) : List Nat :=
  (next? address d).toList ++ (skip? image address d).toList ++
    ((target? image address d).map (·.1)).toList

theorem length_toList_le (o : Option α) : o.toList.length ≤ 1 := by
  cases o <;> simp

theorem length_successors_le (image : Array Decoded) (address : Nat) (d : Decoded) :
    (successors image address d).length ≤ 3 := by
  have first := length_toList_le (next? address d)
  have second := length_toList_le (skip? image address d)
  have third := length_toList_le ((target? image address d).map (·.1))
  simp only [successors, List.length_append]
  omega

def follow (image : Array Decoded) (budget : Nat) (marked : Array Bool) (todo : List Nat) :
    Array Bool :=
  match todo with
  | [] => marked
  | address :: rest =>
    match image[address]? with
    | none => follow image budget marked rest
    | some d =>
      if marked.getD address true then follow image budget marked rest
      else
        match budget with
        | 0 => marked
        | budget + 1 =>
          follow image budget (marked.setIfInBounds address true)
            (successors image address d ++ rest)
termination_by 4 * budget + todo.length
decreasing_by
  · simp only [List.length_cons]
    omega
  · simp only [List.length_cons]
    omega
  · have := length_successors_le image address d
    simp only [List.length_append, List.length_cons]
    omega

/-- Which addresses are code. -/
def code (image : Array Decoded) : Array Bool :=
  follow image image.size (Array.replicate image.size false) [0]

def strongest (old : Option Transfer) (new : Transfer) : Transfer :=
  if old == some .call then .call else new

/-- Labels the target of the instruction at an address, if that is code. -/
def label (image : Array Decoded) (marked : Array Bool) (labels : Array (Option Transfer))
    (address : Nat) : Array (Option Transfer) :=
  if marked.getD address false then
    match image[address]?.bind (target? image address) with
    | some (t, kind) => labels.setIfInBounds t (some (strongest (labels.getD t none) kind))
    | none => labels
  else labels

/-- Which addresses are targets, and of what. -/
def labels (image : Array Decoded) (marked : Array Bool) : Array (Option Transfer) :=
  (List.range image.size).foldl (label image marked) (Array.replicate image.size none)

end Flow

end WordAsm
