import WordAsm.Fault
import WordAsm.Text.Basic

/-!
The tokenizer. A source is cut into lexemes, single delimiters and runs of other characters,
which are gathered into lines. The first token of a line ends at a blank, the others at commas.
An opening brace ends a line like a line break; a closing one is an `.end` of its own, unless an
`.elif` or `.else` comes next and so ends the branch itself.
-/
namespace WordAsm.Tokenizer

def isDelimiter (c : Char) : Bool :=
  [';', ',', ' ', '\t', '\n', '\r', '\x0c', '"', '\\', '\x7b', '\x7d'].contains c

def attach (c : Char) : List (List Char) → List (List Char)
  | (d :: ds) :: rest =>
    if isDelimiter c || isDelimiter d then [c] :: (d :: ds) :: rest else (c :: d :: ds) :: rest
  | rest => [c] :: rest

def lexemes (cs : List Char) : List (List Char) := cs.foldr attach []

inductive Mode where
  | plain
  | comment
  | quoted (escaped : Bool)
  deriving DecidableEq, Repr

inductive Piece where
  | line (tokens : List String) (number : Nat)
  | close (number : Nat)
  deriving DecidableEq, Repr

structure Scan where
  number : Nat := 1
  mode : Mode := .plain
  tokens : List String := []
  current : List (List Char) := []
  pieces : List Piece := []
  fault : Option Fault := none
  deriving Repr

namespace Scan

/-- The unfinished token. -/
def pending (s : Scan) : List Char := Text.trimChars s.current.reverse.flatten

def finishToken (s : Scan) : Scan :=
  { s with tokens := String.ofList s.pending :: s.tokens, current := [] }

def flush (s : Scan) : Scan :=
  if s.pending.isEmpty then { s with current := [] } else s.finishToken

def endLine (s : Scan) (n : Nat) : Scan :=
  let s := { s.flush with mode := .plain }
  if s.tokens.isEmpty then s
  else { s with tokens := [], pieces := .line s.tokens.reverse n :: s.pieces }

def close (s : Scan) (n : Nat) : Scan :=
  let s := s.endLine n
  { s with pieces := .close n :: s.pieces }

/-- A label is a line of its own, and nothing may stand before it. -/
def label (s : Scan) (file : String) (n : Nat) (lexeme : List Char) : Scan :=
  let s := s.flush
  if s.tokens.isEmpty then { s with pieces := .line [String.ofList lexeme] n :: s.pieces }
  else { s with fault := some (.label (.misplaced file n (String.ofList lexeme))) }

def push (s : Scan) (lexeme : List Char) : Scan := { s with current := lexeme :: s.current }

def isGap (lexeme : List Char) : Bool := [[' '], ['\t'], ['\r'], ['\x0c']].contains lexeme

/-- A lexeme outside of comments and strings, on line `n`. -/
def plain (s : Scan) (file : String) (n : Nat) (lexeme : List Char) : Scan :=
  if lexeme == ['\n'] || lexeme == ['\x7b'] then s.endLine n
  else if lexeme == ['\x7d'] then s.close n
  else if Token.isLabelChars lexeme then s.label file n lexeme
  else if lexeme == [','] || (isGap lexeme && s.tokens.isEmpty && !s.pending.isEmpty) then
    s.finishToken
  else if lexeme == [';'] then { s with mode := .comment }
  else if lexeme == ['"'] then { s.push lexeme with mode := .quoted false }
  else s.push lexeme

def quoted (s : Scan) (escaped : Bool) (lexeme : List Char) : Scan :=
  let s := s.push lexeme
  if escaped then { s with mode := .quoted false }
  else if lexeme == ['\\'] then { s with mode := .quoted true }
  else if lexeme == ['"'] then { s with mode := .plain }
  else s

def step (file : String) (s : Scan) (lexeme : List Char) : Scan :=
  if s.fault.isSome then s
  else
    let n := s.number
    let s := if lexeme == ['\n'] then { s with number := n + 1 } else s
    match s.mode with
    | .plain => s.plain file n lexeme
    | .comment => if lexeme == ['\n'] then s.endLine n else s
    | .quoted escaped => s.quoted escaped lexeme

end Scan

structure Lines where
  lines : List Line
  fault : Option Fault
  deriving Repr

namespace Lines

def cons (line : Line) (later : Lines) : Lines := { later with lines := line :: later.lines }

def isContinuation : Piece → Bool
  | .line (first :: _) _ => ((Token.directive? first).map Token.continuesIf).getD false
  | _ => false

def ofPieces (file : String) (fault : Option Fault) : List Piece → Lines
  | [] => ⟨[], fault⟩
  | .line tokens n :: rest => cons ⟨tokens, "", [], file, n⟩ (ofPieces file fault rest)
  | .close n :: rest =>
    match rest with
    | [] => if fault.isSome then ⟨[], fault⟩ else ⟨[⟨[".end"], "", [], file, n⟩], none⟩
    | next :: _ =>
      if isContinuation next then ofPieces file fault rest
      else cons ⟨[".end"], "", [], file, n⟩ (ofPieces file fault rest)

end Lines

def scan (file : String) (cs : List Char) : Scan :=
  (lexemes (cs ++ ['\n'])).foldl (Scan.step file) {}

def tokenize (file source : String) : Lines :=
  let s := scan file source.toList
  Lines.ofPieces file s.fault s.pieces.reverse

end WordAsm.Tokenizer
