import WordAsm.Machine.Word
import WordAsm.Text.Basic
import WordAsm.Text.Case

/-!
Operands: registers, the fields of an instruction word, and what a field means in an image. The
general registers can be dereferenced with and without a displacement; the stack pointer, the
program counter and the overflow register cannot.
-/
namespace WordAsm

inductive Register where
  | a | b | c | x | y | z | i | j
  deriving DecidableEq, Repr

namespace Register

def all : List Register := [a, b, c, x, y, z, i, j]

def index : Register → UInt16
  | a => 0 | b => 1 | c => 2 | x => 3 | y => 4 | z => 5 | i => 6 | j => 7

def name : Register → String
  | a => "A" | b => "B" | c => "C" | x => "X" | y => "Y" | z => "Z" | i => "I" | j => "J"

def ofIndex? (n : UInt16) : Option Register := all.find? (·.index == n)

/-- The general register of that name in any case. -/
def find? (text : String) : Option Register := all.find? fun r => Text.alike r.name text

end Register

def registerNames : List String := Register.all.map Register.name ++ ["SP", "PC", "O"]

def isRegister (text : String) : Bool := registerNames.any fun r => Text.alike r text

end WordAsm

/-!
The six-bit operand fields of an instruction word.

    0x00-0x07  register              0x18  POP   [SP++]     0x1C  PC
    0x08-0x0F  [register]            0x19  PEEK  [SP]       0x1D  O
    0x10-0x17  [next word+register]  0x1A  PUSH  [--SP]     0x1E  [next word]
    0x20-0x3F  literal 0 to 31       0x1B  SP               0x1F  next word
-/
namespace WordAsm.Field

def indirect : UInt16 := 0x08
def displaced : UInt16 := 0x10
def pop : UInt16 := 0x18
def peek : UInt16 := 0x19
def push : UInt16 := 0x1A
def sp : UInt16 := 0x1B
def pc : UInt16 := 0x1C
def overflow : UInt16 := 0x1D
def memory : UInt16 := 0x1E
def nextWord : UInt16 := 0x1F
def literal : UInt16 := 0x20

/-- Literals up to here fit into the field itself. -/
def maxLiteral : UInt16 := 0x1F

def hasNextWord (code : UInt16) : Bool :=
  (displaced ≤ code && code < pop) || code == memory || code == nextWord

def spellings : List (String × UInt16) :=
  [("POP", pop), ("[SP++]", pop), ("PEEK", peek), ("[SP]", peek), ("PUSH", push),
    ("[--SP]", push), ("SP", sp), ("PC", pc), ("O", overflow)] ++
  Register.all.map (fun r => (r.name, r.index)) ++
  Register.all.map (fun r => ("[" ++ r.name ++ "]", indirect + r.index))

def ofText? (text : String) : Option UInt16 :=
  spellings.lookup (Text.upper (Text.squeeze text))

end WordAsm.Field

namespace WordAsm

/-- An operand as an image holds it: a field together with the word that follows it. -/
inductive Argument where
  | register (r : Register)
  | indirect (r : Register)
  | displaced (offset : UInt16) (r : Register)
  | pop
  | peek
  | push
  | sp
  | pc
  | overflow
  | memory (address : UInt16)
  /-- A literal with a word of its own. -/
  | word (value : UInt16)
  /-- A literal in the field. -/
  | short (value : UInt16)
  deriving DecidableEq, Repr, Inhabited

namespace Argument

def registerOf (code : UInt16) : Register := (Register.ofIndex? (code % 8)).getD .a

def ofField (code next : UInt16) : Argument :=
  if code < Field.indirect then register (registerOf code)
  else if code < Field.displaced then indirect (registerOf code)
  else if code < Field.pop then displaced next (registerOf code)
  else if code == Field.pop then pop
  else if code == Field.peek then peek
  else if code == Field.push then push
  else if code == Field.sp then sp
  else if code == Field.pc then pc
  else if code == Field.overflow then overflow
  else if code == Field.memory then memory next
  else if code == Field.nextWord then word next
  else short (code - Field.literal)

/-- The words after the instruction word that belong to the operand. -/
def extra : Argument → List UInt16
  | displaced w _ | memory w | word w => [w]
  | _ => []

/-- The value of a literal. -/
def literal? : Argument → Option UInt16
  | word v | short v => some v
  | _ => none

def text : Argument → String
  | register r => r.name
  | indirect r => "[" ++ r.name ++ "]"
  | displaced w r => "[" ++ Word.literal w ++ "+" ++ r.name ++ "]"
  | pop => "POP"
  | peek => "PEEK"
  | push => "PUSH"
  | sp => "SP"
  | pc => "PC"
  | overflow => "O"
  | memory w => "[" ++ Word.literal w ++ "]"
  | word w => Word.literal w
  | short v => toString v.toNat

end Argument

end WordAsm
