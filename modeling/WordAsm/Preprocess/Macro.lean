import WordAsm.Fault
import WordAsm.Text.Basic

/-!
Macros. An invocation stands in a scope of its own. A token that is a parameter is replaced by
the argument, and a parameter that is a word of a token by the argument in round brackets.
-/
namespace WordAsm

structure Macro where
  name : String
  params : List String
  /-- The lines of the definition, with the `.end` that closes it. -/
  body : List Line
  count : Nat := 0
  deriving DecidableEq, Repr

structure Signature where
  name : String
  arguments : List String
  deriving DecidableEq, Repr

namespace Signature

def trimmed (pieces : List (List Char)) : List String :=
  ((pieces.map Text.trimChars).filter fun cs => !cs.isEmpty).map String.ofList

def pieces (afterBracket : List Char) : List String → List (List Char)
  | [] => [afterBracket.dropLast]
  | rest => afterBracket :: rest.dropLast.map String.toList ++
      [(rest.getLast?.getD "").toList.dropLast]

def read (tokens : List String) : Except Fault Signature :=
  match tokens with
  | [] => .error (.macroSyntax .noTokens)
  | first :: rest =>
    let name := first.toList.takeWhile (· != '(')
    let after := first.toList.drop (name.length + 1)
    if name.isEmpty || name.length == first.length then
      .error (.macroSyntax (.shape (joinTokens tokens)))
    else if ((rest.getLast?.getD first).toList.getLast?) != some ')' then
      .error (.macroSyntax (.unclosed (joinTokens tokens)))
    else .ok ⟨String.ofList (Text.trimChars name), trimmed (pieces after rest)⟩

end Signature

namespace Macro

def isWordChar (c : Char) : Bool := c.isAlphanum || c == '_'

def isBoundary (before after : Option Char) : Bool :=
  before.any isWordChar != after.any isWordChar

def startsWord (word : List Char) (before : Option Char) (cs : List Char) : Bool :=
  let n := word.length
  !word.isEmpty && (cs.take n).map Text.foldChar == word.map Text.foldChar &&
    isBoundary before cs.head? && isBoundary cs[n - 1]? cs[n]?

def replaceWord (word value : List Char) (before : Option Char) (skip : Nat) :
    List Char → List Char
  | [] => []
  | c :: rest =>
    match skip with
    | k + 1 => replaceWord word value (some c) k rest
    | 0 =>
      if startsWord word before (c :: rest) then
        value ++ replaceWord word value (some c) (word.length - 1) rest
      else c :: replaceWord word value (some c) 0 rest

def replaceParam (token : String) (binding : String × String) : String :=
  let value := '(' :: binding.2.toList ++ [')']
  String.ofList (replaceWord binding.1.toList value none 0 token.toList)

def expandToken (bindings : List (String × String)) (token : String) : String :=
  match bindings.find? fun (param, _) => Text.alike token param with
  | some (_, argument) => argument
  | none => bindings.foldl replaceParam token

def expandLine (bindings : List (String × String)) (scope : Scope) (line : Line) : Line :=
  { line with tokens := line.tokens.map (expandToken bindings), scope }

/-- The part of a scope that tells invocations apart. -/
def fragment (m : Macro) : String := Text.upper m.name ++ "_" ++ toString m.count

/-- Invokes a macro: the macro with the invocation counted, and the lines of its body. -/
def expand (m : Macro) (arguments : List String) (outer : Scope) :
    Except Fault (Macro × List Line) :=
  if arguments.length != m.params.length then
    .error (.macroSyntax (.arguments m.name m.params.length arguments.length))
  else
    let m := { m with count := m.count + 1 }
    let scope := outer.enter m.fragment
    .ok (m, m.body.map (expandLine (m.params.zip arguments) scope))

end Macro

end WordAsm
