import WordAsm.Text.Printable

/-!
Texts: their bytes, their blanks, numbers as text, and how messages quote them. Bytes are read as
UTF-8. A byte that belongs to no character is kept as one of the last characters of all, which are
set apart for this; where a text holds one of these itself, its bytes are kept one by one as well.
-/
namespace WordAsm.Text

/-! Bytes. -/

def isStray (c : Char) : Bool := 0x10FF80 ≤ c.toNat

def stray (b : UInt8) : Char := Char.ofNat (0x10FF00 + b.toNat)

def encodeChar (c : Char) : List UInt8 :=
  if isStray c then [UInt8.ofNat c.toNat] else String.utf8EncodeChar c

def encode (s : String) : List UInt8 := s.toList.flatMap encodeChar

/-- The number of bytes. -/
def size (s : String) : Nat := (encode s).length

def charAt? (bytes : List UInt8) : Option Char :=
  ((bytes.take 4).toByteArray.utf8DecodeChar? 0).filter fun c => !isStray c

def decodeFrom (skip : Nat) : List UInt8 → List Char
  | [] => []
  | b :: rest =>
    match skip with
    -- a character is given at the first of its bytes
    | k + 1 => decodeFrom k rest
    | 0 =>
      match charAt? (b :: rest) with
      | some c => c :: decodeFrom (c.utf8Size - 1) rest
      | none => stray b :: decodeFrom 0 rest

def decode (bytes : List UInt8) : String := String.ofList (decodeFrom 0 bytes)

/-! Blanks: those of ASCII with the vertical tab and the form feed, U+0085 and the wide spaces. -/

def isBlank (c : Char) : Bool :=
  let n := c.toNat
  (9 ≤ n && n ≤ 13) || n == 0x20 || n == 0x85 || n == 0xA0 || n == 0x1680 ||
    (0x2000 ≤ n && n ≤ 0x200A) || n == 0x2028 || n == 0x2029 || n == 0x202F ||
    n == 0x205F || n == 0x3000

def trimChars (cs : List Char) : List Char :=
  ((cs.dropWhile isBlank).reverse.dropWhile isBlank).reverse

def trim (s : String) : String := String.ofList (trimChars s.toList)

def squeeze (s : String) : String := String.ofList (s.toList.filter fun c => !isBlank c)

def firstWord (s : String) : String × String :=
  let cs := s.toList.dropWhile isBlank
  (String.ofList (cs.takeWhile fun c => !isBlank c),
    String.ofList (trimChars (cs.dropWhile fun c => !isBlank c)))

/-! Numbers: decimal, and upper-case hexadecimal padded with zeros. -/

def padLeft (width : Nat) (fill : Char) (cs : List Char) : List Char :=
  List.replicate (width - cs.length) fill ++ cs

def padRight (width : Nat) (fill : Char) (cs : List Char) : List Char :=
  cs ++ List.replicate (width - cs.length) fill

def hexChars (n : Nat) : List Char := (Nat.toDigits 16 n).map Char.toUpper

/-- Hexadecimal with at least `width` digits. -/
def hex (width n : Nat) : String := String.ofList (padLeft width '0' (hexChars n))

def hexInt (width : Nat) (i : Int) : String :=
  if i < 0 then "-" ++ hex (width - 1) i.natAbs else hex width i.natAbs

/-! Quoting. Printable characters stand for themselves; the quote, the backslash and everything
else is escaped. -/

def lowerHex (width n : Nat) : List Char :=
  let digits := Nat.toDigits 16 n
  List.replicate (width - digits.length) '0' ++ digits

/-- A character that cannot stand for itself. -/
def escape (c : Char) : List Char :=
  match c.toNat with
  | 7 => ['\\', 'a']
  | 8 => ['\\', 'b']
  | 9 => ['\\', 't']
  | 10 => ['\\', 'n']
  | 11 => ['\\', 'v']
  | 12 => ['\\', 'f']
  | 13 => ['\\', 'r']
  | n =>
    if n < 0x80 || isStray c then '\\' :: 'x' :: lowerHex 2 (n % 0x100)
    else if n < 0x10000 then '\\' :: 'u' :: lowerHex 4 n
    else '\\' :: 'U' :: lowerHex 8 n

def quoteChar (mark c : Char) : List Char :=
  if c == mark || c == '\\' then ['\\', c]
  else if isPrintable c then [c]
  else escape c

def quote (s : String) : String := String.ofList ('"' :: s.toList.flatMap (quoteChar '"') ++ ['"'])

def apostrophe : Char := Char.ofNat 0x27

def quoteSingle (c : Char) : String :=
  String.ofList (apostrophe :: quoteChar apostrophe c ++ [apostrophe])

end WordAsm.Text
