import WordAsm.Machine.Word
import WordAsm.Symbol.Lookup

/-!
String literals. Letters before the opening quote say how the characters are stored:

    k, s   two characters a word, the first one in the high or in the low byte
    z, x   followed by a zero byte or a zero word
    a, p   preceded by their number in a byte or in a word
    <mask> every character is combined with the mask by `or`
-/
namespace WordAsm

inductive Packing where
  | words
  | highFirst
  | lowFirst
  deriving DecidableEq, Repr

structure StringFlags where
  packing : Packing := .words
  zeroByte : Bool := false
  zeroWord : Bool := false
  countByte : Bool := false
  countWord : Bool := false
  mask : Int64 := 0
  deriving DecidableEq, Repr

namespace StringFlags

def isPacked (f : StringFlags) : Bool := f.packing != .words

def conflict (first second : Char) : Except Fault StringFlags :=
  .error (.operand (.incompatibleFlags first second))

def letter (f : StringFlags) (c : Char) : Except Fault StringFlags :=
  match c with
  | 'k' => if f.packing == .lowFirst then conflict 'k' 's' else .ok { f with packing := .highFirst }
  | 's' => if f.packing == .highFirst then conflict 'k' 's' else .ok { f with packing := .lowFirst }
  | 'z' => if f.zeroWord then conflict 'z' 'x' else .ok { f with zeroByte := true }
  | 'x' => if f.zeroByte then conflict 'z' 'x' else .ok { f with zeroWord := true }
  | 'a' => if f.countWord then conflict 'a' 'p' else .ok { f with countByte := true }
  | 'p' => if f.countByte then conflict 'a' 'p' else .ok { f with countWord := true }
  | ' ' | '\t' => .ok f
  | c =>
    .error (.operand (.unknownFlag (Char.ofNat ((Text.encodeChar c).headD 0).toNat)))

def readFrom (value : String → Except Fault Int64) (all : String) (f : StringFlags) (skip : Nat) :
    List Char → Except Fault StringFlags
  | [] => .ok f
  | c :: rest =>
    match skip with
    | k + 1 => readFrom value all f k rest
    | 0 =>
      if c == '<' then
        let text := rest.takeWhile (· != '>')
        if text.length == rest.length then .error (.operand (.unclosedMask all))
        else
          match value (String.ofList text) with
          | .error e => .error e
          | .ok mask => readFrom value all { f with mask } (text.length + 1) rest
      else
        match f.letter c with
        | .error e => .error e
        | .ok f => readFrom value all f 0 rest

def read (value : String → Except Fault Int64) (flags : List Char) : Except Fault StringFlags :=
  readFrom value (String.ofList flags) {} 0 flags

def packedSize (f : StringFlags) (n : Nat) : Nat :=
  let byteMarker := f.zeroByte || f.countByte
  let bytes := if byteMarker then n + 1 else n
  (bytes + 1) / 2 + (if !byteMarker && (f.zeroWord || f.countWord) then 1 else 0)

def unpacked (f : StringFlags) (chars : List UInt16) : List UInt16 :=
  (if f.countByte || f.countWord then [UInt16.ofNat chars.length] else []) ++ chars ++
    (if f.zeroByte || f.zeroWord then [0] else [])

def half (lowFirst : Bool) (position : Nat) (c : UInt16) : UInt16 :=
  if (position % 2 == 1) == lowFirst then c <<< 8 else c &&& 0xFF

def put (index : Nat) (bits : UInt16) (words : List UInt16) : Option (List UInt16) :=
  if index < words.length then some (words.modify index (· ||| bits)) else none

def fill (lowFirst : Bool) (start position : Nat) :
    List UInt16 → List UInt16 → Option (List UInt16)
  | [], words => some words
  | c :: rest, words =>
    (put (position / 2 + start) (half lowFirst position c) words).bind
      (fill lowFirst start (position + 1) rest)

def packed (f : StringFlags) (chars : List UInt16) : Option (List UInt16) :=
  let count := UInt16.ofNat chars.length
  let lowFirst := f.packing == .lowFirst
  let words := List.replicate (f.packedSize chars.length) 0
  if f.countWord then (put 0 count words).bind (fill lowFirst 1 0 chars)
  else if f.countByte then
    -- the first character shares its word with the count
    let shared := half lowFirst 0 count ||| half lowFirst 1 (chars.headD 0)
    (put 0 shared words).bind (fill lowFirst 1 0 chars.tail)
  else fill lowFirst 0 0 chars words

/-- The words of a string; none if a packed one does not fit the room computed for it. -/
def encode (f : StringFlags) (chars : List UInt16) : Option (List UInt16) :=
  if f.isPacked then f.packed chars else some (f.unpacked chars)

end StringFlags

namespace StringLiteral

def escaped (c : Char) : List UInt8 :=
  match c with
  | 'n' => [10]
  | 'r' => [13]
  | 't' => [9]
  | 'f' => [12]
  | '0' => [0]
  | 'b' => [8]
  | c => Text.encodeChar c

/-- The bytes between the quotes. A backslash at the end stands for nothing. -/
def bytes (afterBackslash : Bool) : List Char → List UInt8
  | [] => []
  | c :: rest =>
    if afterBackslash then escaped c ++ bytes false rest
    else if c == '\\' then bytes true rest
    else Text.encodeChar c ++ bytes false rest

def split? (cs : List Char) : Option (List Char × List Char) :=
  let flags := cs.takeWhile (· != '"')
  let body := (cs.drop (flags.length + 1)).reverse.dropWhile (· != '"')
  if body.isEmpty then none else some (flags, (body.drop 1).reverse)

/-- The words of a string literal, and whether they hold two characters each. -/
def read (value : String → Except Fault Int64) (code : String) :
    Except Fault (List UInt16 × Bool) :=
  match split? code.toList with
  | none => .error (.operand (.unterminatedString code))
  | some (flags, text) =>
    match StringFlags.read value flags with
    | .error f => .error f
    | .ok f =>
      let chars := (bytes false text).map fun b => lowWord (Int64.ofNat b.toNat ||| f.mask)
      match f.encode chars with
      | some words => .ok (words, f.isPacked)
      | none => .error (.breakdown .packedString)

end StringLiteral

end WordAsm
