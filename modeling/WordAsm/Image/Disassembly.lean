import WordAsm.Fault
import WordAsm.Image.Decode
import WordAsm.Machine.Word

/-!
Data as source text. Runs of printable characters become labelled strings, everything else
hexadecimal words, eight to a line.
-/
namespace WordAsm.ImageData

def minString : Nat := 4
def wordsPerLine : Nat := 8

def isPrintable (w : UInt16) : Bool := 0x20 ≤ w && w ≤ 0x7E

inductive Segment where
  | words (ws : List UInt16)
  /-- Characters, with a zero word after them if `isZero`. -/
  | string (chars : List UInt16) (isZero : Bool)
  deriving DecidableEq, Repr

def flush (pending : List UInt16) : List Segment :=
  if pending.isEmpty then [] else [.words pending.reverse]

def segments (pending data : List UInt16) : List Segment :=
  match data with
  | [] => flush pending
  | w :: rest =>
    let run := (w :: rest).takeWhile isPrintable
    if minString ≤ run.length then
      let after := rest.drop (run.length - 1)
      let isZero := after.head? == some 0
      flush pending ++ .string run isZero :: segments [] (if isZero then after.drop 1 else after)
    else segments (w :: pending) rest
termination_by data.length
decreasing_by
  · simp only [List.length_cons]
    split <;> simp only [List.length_drop] <;> omega
  · simp

def rows (ws : List UInt16) : List (List UInt16) :=
  match ws with
  | [] => []
  | w :: rest => (w :: rest.take (wordsPerLine - 1)) :: rows (rest.drop (wordsPerLine - 1))
termination_by ws.length
decreasing_by
  simp only [List.length_drop, List.length_cons]
  omega

def sourceLine (mnemonic operands : String) : String :=
  "    " ++ String.ofList (Text.padRight 8 ' ' mnemonic.toList) ++ " " ++ operands ++ "\n"

def escape (w : UInt16) : List Char :=
  let c := Char.ofNat w.toNat
  if c == '"' || c == '\\' then ['\\', c] else [c]

def renderWords (ws : List UInt16) : String :=
  String.join ((rows ws).map fun row => sourceLine "DAT" (", ".intercalate (row.map Word.literal)))

def renderString (number : Int) (chars : List UInt16) (isZero : Bool) : String :=
  ":string" ++ toString number ++ "\n" ++
    sourceLine "DAT" ((if isZero then "z" else "") ++
      String.ofList ('"' :: chars.flatMap escape ++ ['"']))

def renderSegments (number : Int) : List Segment → String × Int
  | [] => ("", number)
  | .words ws :: rest =>
    let (later, next) := renderSegments number rest
    (renderWords ws ++ later, next)
  | .string chars isZero :: rest =>
    let (later, next) := renderSegments (number + 1) rest
    (renderString number chars isZero ++ later, next)

def render (number : Int) (data : List UInt16) : String × Int :=
  renderSegments number (segments [] data)

end WordAsm.ImageData

/-!
Disassembly: the code that can be reached as instructions with labels, and the rest as data.
-/
namespace WordAsm

structure Oversize where
  words : Nat
  deriving DecidableEq, Repr

def Oversize.message (o : Oversize) : String :=
  "image larger than the address space: " ++ toString o.words ++ " words"

namespace Disassembly

structure Cell where
  word : UInt16
  decoded : Decoded
  isCode : Bool

inductive Chunk where
  | code (address : Nat) (words : List UInt16) (decoded : Decoded)
  | data (address : Nat) (words : List UInt16)
  deriving DecidableEq, Repr

namespace Chunk

def address : Chunk → Nat
  | code address _ _ | data address _ => address

def words : Chunk → List UInt16
  | code _ words _ | data _ words => words

def consData (address : Nat) (word : UInt16) : List Chunk → List Chunk
  | data _ words :: rest => data address (word :: words) :: rest
  | rest => data address [word] :: rest

end Chunk

def cut (address skip : Nat) : List Cell → List Chunk
  | [] => []
  | cell :: rest =>
    match skip with
    | k + 1 => cut (address + 1) k rest
    | 0 =>
      if cell.isCode then
        let size := cell.decoded.size
        .code address (((cell :: rest).take size).map Cell.word) cell.decoded ::
          cut (address + 1) (size - 1) rest
      else Chunk.consData address cell.word (cut (address + 1) 0 rest)

def labelName (address : Nat) : Transfer → String
  | .call => "sub_" ++ Text.hex 4 address
  | .jump => "loc_" ++ Text.hex 4 address

/-- An image made ready to be written: its chunks, and the labels that are shown. -/
structure Plan where
  chunks : List Chunk
  labels : Array (Option Transfer)

namespace Plan

/-- Keeps the labels of addresses where a chunk begins; those inside of an instruction are not
shown. -/
def visible (labels : Array (Option Transfer)) (chunks : List Chunk) : Array (Option Transfer) :=
  chunks.foldl (fun shown c => shown.setIfInBounds c.address (labels.getD c.address none))
    (Array.replicate labels.size none)

def ofWords (words : List UInt16) : Plan :=
  let decoded := decodeAll words
  let image := decoded.toArray
  let marked := Flow.code image
  let cells := (words.zip (decoded.zip marked.toList)).map fun (w, d, m) => Cell.mk w d m
  let parts := cut 0 0 cells
  ⟨parts, visible (Flow.labels image marked) parts⟩

def label? (p : Plan) (address : Nat) : Option String :=
  (p.labels.getD address none).map (labelName address)

/-- The operands of an instruction with the name of its target, or the name as a comment where
the operand is a distance. -/
def operands (p : Plan) (address : Nat) (d : Decoded) : String :=
  let texts := d.operandTexts
  match (d.target? address).bind fun t => p.label? t.1 with
  | none => ", ".intercalate texts
  | some name =>
    match d with
    | .basic .add _ _ | .basic .sub _ _ => ", ".intercalate texts ++ " ; " ++ name
    | _ => ", ".intercalate (texts.dropLast ++ [name])

def renderCode (p : Plan) (address : Nat) (d : Decoded) : String :=
  ((p.label? address).map fun name => ":" ++ name ++ "\n").getD "" ++
    ImageData.sourceLine d.mnemonic (p.operands address d)

def renderChunks (p : Plan) (number : Int) : List Chunk → List String
  | [] => []
  | .code address _ d :: rest => p.renderCode address d :: p.renderChunks number rest
  | .data _ words :: rest =>
    let (text, next) := ImageData.render number words
    text :: p.renderChunks next rest

def text (p : Plan) : String := String.join (p.renderChunks 1 p.chunks)

def note (p : Plan) (words : Nat) : Note :=
  .disassembled words p.chunks.length (p.labels.toList.countP Option.isSome)

end Plan

end Disassembly

/-- The source of an image, with notes for the log. -/
def disassemble (words : List UInt16) : Except Oversize (String × List Note) :=
  if addressSpace < words.length then .error ⟨words.length⟩
  else if words.isEmpty then .ok ("", [])
  else
    let plan := Disassembly.Plan.ofWords words
    .ok (plan.text, [plan.note words.length])

end WordAsm
