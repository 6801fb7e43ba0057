import WordAsm.Text.Case

/-!
Lines as the tokenizer leaves them, and what their first token says about them.
-/
namespace WordAsm

/-- One fragment for each macro invocation that a line stands in, the outermost first. -/
abbrev Scope := List String

namespace Scope

def enter (s : Scope) (fragment : String) : Scope := s ++ [fragment]

def text (s : Scope) : String := "::".intercalate s

def qualifier (s : Scope) : String := if s.isEmpty then "" else s.text ++ "::"

def qualifiers (s : Scope) : List String :=
  (List.range s.length).reverse.map fun n => qualifier (s.take (n + 1))

end Scope

structure Line where
  tokens : List String
  global : String := ""
  scope : Scope := []
  file : String
  number : Nat
  deriving DecidableEq, Repr, Inhabited

def joinTokens : List String → String
  | [] => ""
  | [first] => first
  | first :: rest => first ++ " " ++ ", ".intercalate rest

namespace Line

def text (line : Line) : String := joinTokens line.tokens

def first (line : Line) : String := line.tokens.headD ""

def operands (line : Line) : List String := line.tokens.tail

end Line

namespace Token

/-- The lower-case name of a directive, which a dot or a hash introduces. -/
def directive? (token : String) : Option String :=
  match token.toList with
  | '.' :: name | '#' :: name => some (Text.lower (String.ofList name))
  | _ => none

def isLabelChars (cs : List Char) : Bool := cs.head? == some ':' || cs.getLast? == some ':'

def isLabel (token : String) : Bool := isLabelChars token.toList

/-- The name of a label token, without a colon at either end. -/
def labelName (token : String) : String :=
  let cs := token.toList
  let cs := if cs.head? == some ':' then cs.drop 1 else cs
  String.ofList (if cs.getLast? == some ':' then cs.dropLast else cs)

def continuesIf (name : String) : Bool := ["elif", "elsif", "elseif", "else"].contains name

end Token

end WordAsm
