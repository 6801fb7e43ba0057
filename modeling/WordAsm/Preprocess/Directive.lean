import Std.Data.TreeMap
import WordAsm.Options
import WordAsm.Preprocess.Reader
import WordAsm.Statement.Basic

/-!
What a line does: directives, labels, macro invocations and statements.
-/
namespace WordAsm

/-- What preprocessing has gathered. Lists have their last element first. -/
structure Work where
  symbols : Symbols := {}
  macros : Std.TreeMap String Macro := {}
  statements : List Statement := []
  /-- What is added to the positions of labels from here on. -/
  origin : Int64 := 0
  echo : List String := []
  notes : List Note := []
  deriving Inhabited

def accept {α : Type} : α × Option Fault → Except Fault α
  | (answer, none) => .ok answer
  | (_, some fault) => .error fault

namespace Work

/-- Adds a statement. -/
def add (w : Work) (line : Line) : Except Fault Work := do
  let statement ← Statement.read w.symbols line
  return { w with statements := statement :: w.statements }

def addLabel (w : Work) (line : Line) (global : String) : Except Fault (Work × String) := do
  let label := ⟨w.statements.length, w.origin⟩
  let (symbols, global) ←
    accept (w.symbols.addLabel (Token.labelName line.first) line.scope global label)
  return ({ w with symbols }, global)

def define (w : Work) (line : Line) (operand : String) : Except Fault Work := do
  let (name, source) := Text.firstWord operand
  if name == "" then throw (.breakdown .blankDefinition)
  let value ← if source == "" then pure 1 else w.symbols.literal line source
  return { w with symbols := ← accept (w.symbols.define name value) }

end Work

/-- The only operand of a directive. -/
def Line.operand (line : Line) : Except Fault String :=
  match line.tokens with
  | [_, operand] => .ok operand
  | tokens => .error (.tokenCount (.tokens 2 tokens.length))

namespace Include

def strip (opening closing : Char) (cs : List Char) : List Char :=
  let cs := if cs.head? == some opening then cs.drop 1 else cs
  if cs.getLast? == some closing then cs.dropLast else cs

/-- The paths that an include may mean. A quoted path is relative to the including file, a
bracketed one to the directories of the options. -/
def candidates (o : Options) (line : Line) (token : String) : Except Fault (List String) :=
  match token.toList with
  | '"' :: _ :: _ =>
    let quoted := token.toList.dropWhile (· == '"')
    let path := String.ofList (quoted.reverse.dropWhile (· == '"')).reverse
    .ok [if Path.isAbsolute path then path else Path.join (Path.parent line.file) path]
  | '<' :: _ :: _ =>
    let path := String.ofList (strip '<' '>' token.toList)
    .ok (if o.includeDirs.isEmpty then [path] else o.includeDirs.map (Path.join · path))
  | _ => .error (.includePath token)

def firstOf (files : FileStore) : List String → Except Fault (Option (String × List UInt8))
  | [] => .ok none
  | path :: rest =>
    match files.read path with
    | .ok bytes => .ok (some (path, bytes))
    | .error f => if f.isMissing then firstOf files rest else .error (.file (some path) f)

def find (o : Options) (w : Work) (line : Line) :
    Except Fault (Work × Option (String × List UInt8)) := do
  let token ← line.operand
  match ← firstOf o.files (← candidates o line token) with
  | some hit => return (w, some hit)
  | none =>
    return ({ w with notes := .missingInclude line.file line.number token :: w.notes }, none)

def dataLine (line : Line) (bytes : List UInt8) : Line :=
  { line with tokens := "DAT" :: (Word.ofBytes bytes).map Word.literal }

end Include

namespace Directive

abbrev Result := Except Fault (Work × List Reader)

def isFlow (name : String) : Bool :=
  ["if", "ifdef", "ifndef", "elif", "elsif", "elseif", "else", "rep", "macro", "end"].contains name

def isStatement (name : String) : Bool := ["dw", "dp", "ascii", "fill", "align"].contains name

def condition (name operand : String) : String :=
  match name with
  | "ifdef" => "isdef(" ++ operand ++ ")"
  | "ifndef" => "!isdef(" ++ operand ++ ")"
  | _ => operand

def holds (w : Work) (line : Line) (name : String) : Except Fault Bool := do
  let operand ← line.operand
  return (← w.symbols.literal line (condition name operand)) != 0

def openIf (w : Work) (r : Reader) (line : Line) (name : String) : Except Fault Reader :=
  if r.top.isActive then do
    let taken ← holds w line name
    return r.push { kind := .conditional, isActive := taken, isSettled := taken }
  else .ok (r.push { kind := .conditional, isActive := false, isSettled := true })

def elseIf (w : Work) (r : Reader) (line : Line) (name : String) : Except Fault Reader :=
  if r.top.kind != .conditional then .error (.context name)
  else if r.top.isSettled then .ok { r with top := { r.top with isActive := false } }
  else do
    let taken ← holds w line name
    return { r with top := { r.top with isActive := taken, isSettled := taken } }

def otherwise (r : Reader) : Except Fault Reader :=
  if r.top.kind != .conditional then .error (.context "else")
  else .ok { r with top := { r.top with isActive := !r.top.isSettled, isSettled := true } }

def openRep (w : Work) (r : Reader) (line : Line) : Except Fault Reader :=
  if r.top.isActive then do
    let n ← w.symbols.literal line (← line.operand)
    return r.push { kind := .repetition, isActive := false, remaining := n.toInt.toNat }
  else .ok (r.push { kind := .repetition, isActive := false })

def openMacro (r : Reader) (line : Line) : Except Fault Reader :=
  if r.top.isActive then do
    let signature ← Signature.read line.operands
    return r.push { kind := .expansion (some signature), isActive := false }
  else .ok (r.push { kind := .expansion none, isActive := false })

def register (w : Work) (f : Frame) : Work :=
  match f.kind with
  | .expansion (some s) =>
    let defined : Macro := ⟨s.name, s.arguments, f.captured.reverse, 0⟩
    { w with macros := w.macros.insert (Text.upper s.name) defined }
  | _ => w

def close (w : Work) (r : Reader) : Except Fault (Work × Reader) :=
  match r.below with
  | [] => .error .tooManyEnds
  | outer :: below =>
    if r.top.kind == .repetition && 0 < r.top.remaining then .ok (w, r.replayTop)
    else .ok (register w r.top, r.pop outer below)

def includeFile (o : Options) (w : Work) (r : Reader) (line : Line) : Result := do
  match ← Include.find o w line with
  | (w, none) => return (w, [r])
  | (w, some (path, bytes)) =>
    let inner := Reader.ofSource path (Text.decode bytes) r.top.global
    return ({ w with notes := .including path :: w.notes }, [inner, r])

def includeBytes (o : Options) (w : Work) (line : Line) : Except Fault Work := do
  match ← Include.find o w line with
  | (w, none) => return w
  | (w, some (_, bytes)) => w.add (Include.dataLine line bytes)

def joined (line : Line) : String := ", ".intercalate line.operands

def onWork (r : Reader) (w : Except Fault Work) : Result := do return (← w, [r])
def onReader (w : Work) (r : Except Fault Reader) : Result := do return (w, [← r])

def apply (o : Options) (w : Work) (r : Reader) (line : Line) (name : String) : Result :=
  match name with
  | "include" => includeFile o w r line
  | "incbin" => onWork r (includeBytes o w line)
  | "def" | "define" | "equ" => onWork r do w.define line (← line.operand)
  | "undef" => onWork r do return { w with symbols := w.symbols.undefine (← line.operand) }
  | "echo" => .ok ({ w with echo := (joined line ++ "\n") :: w.echo }, [r])
  | "error" => .error (.user (joined line))
  | "if" | "ifdef" | "ifndef" => onReader w (openIf w r line name)
  | "elif" | "elsif" | "elseif" => onReader w (elseIf w r line name)
  | "else" => onReader w (otherwise r)
  | "rep" => onReader w (openRep w r line)
  | "macro" => onReader w (openMacro r line)
  | "end" => do
    let (w, r) ← close w r
    return (w, [r])
  | "org" => onWork r do return { w with origin := ← w.symbols.literal line (← line.operand) }
  | _ => if isStatement name then onWork r (w.add line) else .error (.unknownDirective name)

end Directive

namespace Reader

def invoke (w : Work) (r : Reader) (line : Line) : Except Fault (Work × Reader) := do
  let call ← Signature.read line.tokens
  let key := Text.upper call.name
  match w.macros[key]? with
  | none => throw (.undefinedMacro call.name)
  | some m =>
    let (m, body) ← m.expand call.arguments line.scope
    let frame : Frame :=
      { kind := .expansion none, isActive := true, captured := body.reverse, isReplaying := true }
    return ({ w with macros := w.macros.insert key m }, r.pushReplay frame body)

def maxTokens : Nat := 3

def useLine (w : Work) (r : Reader) (line : Line) : Except Fault (Work × Reader) :=
  if line.first.toList.contains '(' then invoke w r line
  else if Token.isLabel line.first then do
    let (w, global) ← w.addLabel line r.top.global
    return (w, { r with top := { r.top with global } })
  else if Text.upper line.first != "DAT" && maxTokens < line.tokens.length then
    .error (.tooManyTokens line.tokens.length)
  else do return (← w.add line, r)

def handle (o : Options) (w : Work) (r : Reader) (line : Line) : Directive.Result :=
  match Token.directive? line.first with
  | some name =>
    if r.top.isActive || Directive.isFlow name then Directive.apply o w r line name
    else .ok (w, [r])
  | none =>
    if r.top.isActive then do
      let (w, r) ← useLine w r line
      return (w, [r])
    else .ok (w, [r])

end Reader

end WordAsm
