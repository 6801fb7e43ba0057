import WordAsm.Expr.Parser
import WordAsm.Machine.Word
import WordAsm.Source.Line

/-!
Why a source cannot be assembled. Each fault has one cause; `Fault.message` words it, and
`Failure` adds the line that it arose on.
-/
namespace WordAsm

inductive CountFault where
  | tokens (want got : Nat)
  | operands (mnemonic : Mnemonic)
  | fill
  deriving DecidableEq, Repr

inductive UnterminatedFault where
  | openBlocks (count : Nat)
  | replay
  deriving DecidableEq, Repr

inductive MacroFault where
  | noTokens
  | shape (text : String)
  | unclosed (text : String)
  | arguments (name : String) (want got : Nat)
  deriving DecidableEq, Repr

inductive LabelFault where
  | misplaced (file : String) (line : Nat) (token : String)
  | label (name : String)
  | constant (name : String)
  deriving DecidableEq, Repr

inductive RedefinedFault where
  | labelOverConstant (name : String)
  | labelOverLabel (name : String)
  | constantOverConstant (name : String)
  | constantOverLabel (name : String)
  deriving DecidableEq, Repr

inductive UndefinedFault where
  | unknown (name : String)
  | unplaced (key : String)
  deriving DecidableEq, Repr

inductive OperandFault where
  | isdef (argument : Expr)
  | register (raw : String) (tree : Expr)
  | alignment (boundary : Int64)
  | fillLength (length : Int64)
  | unterminatedString (text : String)
  | incompatibleFlags (first second : Char)
  | unclosedMask (flags : String)
  | unknownFlag (flag : Char)
  deriving DecidableEq, Repr

inductive RegisterFault where
  | reserved (register raw : String)
  | count (registers : Nat) (raw : String) (tree : Expr)
  | shape (raw : String) (tree : Expr)
  deriving DecidableEq, Repr

inductive LiteralFault where
  | text (raw : String) (tree : Expr)
  | tree (tree : Expr)
  | part (tree : Expr) (raw : String)
  deriving DecidableEq, Repr

inductive FileProblem where
  | doesNotExist
  | noSuchFile
  | invalidArgument
  | isDirectory
  | notDirectory
  | nameTooLong
  | unloaded
  | other (text : String)
  deriving DecidableEq, Repr

/-- What happened to the file of that name while it was opened, read or written. -/
structure FileFault where
  action : String
  name : String
  problem : FileProblem
  deriving DecidableEq, Repr

/-- Sources on which the assembler breaks down instead of reporting a fault. -/
inductive Breakdown where
  | blankDefinition
  /-- A packed string that is longer than the room computed for it. -/
  | packedString
  /-- More words on a line than there can be room for. -/
  | allocation
  | endless
  deriving DecidableEq, Repr

inductive Fault where
  | tokenCount (why : CountFault)
  | context (directive : String)
  | unterminated (why : UnterminatedFault)
  | tooManyEnds
  | macroSyntax (why : MacroFault)
  | undefinedMacro (name : String)
  | unknownDirective (name : String)
  | includePath (token : String)
  | label (why : LabelFault)
  | user (text : String)
  | redefined (why : RedefinedFault)
  | undefinedLabel (why : UndefinedFault)
  | tooManyTokens (count : Nat)
  | unknownInstruction (name : String)
  | operand (why : OperandFault)
  | registerForm (why : RegisterFault)
  | notLiteral (why : LiteralFault)
  | notConverged (passes : Nat)
  | divisionByZero
  | parse (error : ParseError)
  | file (path : Option String) (fault : FileFault)
  | breakdown (why : Breakdown)
  deriving DecidableEq, Repr

namespace CountFault

def message : CountFault → String
  | tokens want got => "want " ++ toString want ++ ", got " ++ toString got
  | operands m => m.name ++ " takes " ++ toString m.operandCount ++ " operand(s)"
  | fill => ".FILL length[, value]"

end CountFault

namespace UnterminatedFault

def message : UnterminatedFault → String
  | openBlocks count => toString count ++ " block(s) still open"
  | replay => "replay ran out of lines"

end UnterminatedFault

namespace MacroFault

def message : MacroFault → String
  | noTokens => "not enough tokens"
  | shape text => text
  | unclosed text => "missing ')' in " ++ text
  | arguments name want got =>
    name ++ " takes " ++ toString want ++ " arguments, got " ++ toString got

end MacroFault

namespace RedefinedFault

def message : RedefinedFault → String
  | labelOverConstant name => name ++ " is a constant, undefine it first"
  | labelOverLabel name => "label " ++ name
  | constantOverConstant name => name ++ ", undefine it first"
  | constantOverLabel name => name ++ " is a label"

end RedefinedFault

namespace UndefinedFault

def message : UndefinedFault → String
  | unknown name => name
  | unplaced key => key ++ " refers to a line without a position"

end UndefinedFault

namespace OperandFault

def message : OperandFault → String
  | isdef argument => "isdef needs a name, got " ++ argument.text
  | register raw tree => "cannot use a register this way: " ++ raw ++ " => " ++ tree.text
  | alignment boundary => "alignment " ++ toString boundary
  | fillLength length => "negative fill length " ++ toString length
  | unterminatedString text => "unterminated string " ++ text
  | incompatibleFlags first second =>
    String.ofList [first] ++ " and " ++ String.ofList [second] ++ " are incompatible"
  | unclosedMask flags => "unclosed <mask> in " ++ flags
  | unknownFlag flag => "unknown string flag " ++ Text.quoteSingle flag

end OperandFault

namespace RegisterFault

def message : RegisterFault → String
  | reserved register raw => "cannot use " ++ register ++ " in " ++ raw
  | count registers raw tree =>
    toString registers ++ " registers in " ++ raw ++ " => " ++ tree.text
  | shape raw tree => raw ++ " => " ++ tree.text

end RegisterFault

namespace LiteralFault

def message : LiteralFault → String
  | text raw e => raw ++ " => " ++ e.text
  | tree e => e.text
  | part e raw => e.text ++ " in " ++ raw

end LiteralFault

namespace FileFault

def problemText : FileProblem → String
  | .doesNotExist => "file does not exist"
  | .noSuchFile => "no such file or directory"
  | .invalidArgument => "invalid argument"
  | .isDirectory => "is a directory"
  | .notDirectory => "not a directory"
  | .nameTooLong => "file name too long"
  | .unloaded => "not loaded"
  | .other text => text

def message (f : FileFault) : String := f.action ++ " " ++ f.name ++ ": " ++ problemText f.problem

def isMissing (f : FileFault) : Bool := f.problem == .doesNotExist || f.problem == .noSuchFile

end FileFault

namespace Fault

def labelMessage : LabelFault → String
  | .misplaced path line token =>
    path ++ ":" ++ toString line ++ ": malformed label: " ++ token ++
      " is not at the beginning of the line"
  | .label name => "malformed label: " ++ Text.quote name
  | .constant name => "malformed label: cannot define " ++ Text.quote name

def message : Fault → String
  | tokenCount why => "wrong token count: " ++ why.message
  | context directive => "directive in wrong context: " ++ directive ++ " without if"
  | unterminated why => "not enough ends: " ++ why.message
  | tooManyEnds => "too many ends"
  | macroSyntax why => "malformed macro: " ++ why.message
  | undefinedMacro name => "undefined macro: " ++ name
  | unknownDirective name => "preprocessor directive not handled: " ++ name
  | includePath token => "path not understood: " ++ token
  | label why => labelMessage why
  | user text => "error directive: " ++ text
  | redefined why => "cannot redefine symbol: " ++ why.message
  | undefinedLabel why => "undefined label: " ++ why.message
  | tooManyTokens count => "too many tokens on line: " ++ toString count
  | unknownInstruction name => "instruction not recognized: " ++ name
  | operand why => "operand not understood: " ++ why.message
  | registerForm why => "cannot rearrange into [register+literal] form: " ++ why.message
  | notLiteral why => "expression does not simplify to a literal: " ++ why.message
  | notConverged passes =>
    "the code won't stay put after " ++ toString passes ++
      " passes; check for instructions that change size based on a later label"
  | divisionByZero => "division by zero"
  | parse error => error.message
  | file (some path) fault => "reading " ++ path ++ ": " ++ fault.message
  | file none fault => fault.message
  | breakdown _ => "internal error"

end Fault

/-- A place in a source, with the text of the line there. -/
structure Location where
  file : String
  line : Nat
  global : String
  scope : Scope
  text : String
  deriving DecidableEq, Repr

namespace Location

def ofLine (line : Line) : Location :=
  ⟨line.file, line.number, line.global, line.scope, line.text⟩

def message (loc : Location) : String :=
  loc.file ++ ":" ++ toString loc.line ++
    (if loc.global == "" then "" else " in " ++ loc.global) ++
    (if loc.scope.isEmpty then "" else " (" ++ loc.scope.text ++ ")") ++
    (if loc.text == "" then "" else ": " ++ loc.text)

end Location

/-- A fault and where it arose, if that is known. -/
structure Failure where
  fault : Fault
  location : Option Location := none
  deriving DecidableEq, Repr

namespace Failure

def locate (line : Line) (f : Failure) : Failure :=
  match f.location with
  | some _ => f
  | none => { f with location := some (.ofLine line) }

def message (f : Failure) : String :=
  match f.location with
  | some loc => loc.message ++ ": " ++ f.fault.message
  | none => f.fault.message

end Failure

/-!
The log: warnings, and remarks that show only at a level of verbosity.
-/

inductive Note where
  | missingInclude (file : String) (line : Nat) (token : String)
  | including (path : String)
  | shrinkingFill (file : String) (line old new : Nat)
  | substituted (file : String) (line : Nat) (new old : String) (words : List UInt16)
  | pass (number : Nat) (changed : Bool)
  | converged (passes : Nat)
  | disassembled (words chunks labels : Nat)
  | wrote (words : Nat) (file : String)
  deriving DecidableEq, Repr

namespace Note

def level? : Note → Option Nat
  | missingInclude .. | shrinkingFill .. => none
  | including _ | pass .. | disassembled .. => some 2
  | substituted .. | converged _ | wrote .. => some 1

def place (file : String) (line : Nat) : String := file ++ ":" ++ toString line ++ ": "

def message : Note → String
  | missingInclude file line token => place file line ++ token ++ " does not exist, skipping"
  | including path => "including " ++ path
  | shrinkingFill file line old new =>
    place file line ++ ".FILL would shrink from " ++ toString old ++ " to " ++ toString new ++
      " words, keeping " ++ toString old
  | substituted file line new old words =>
    place file line ++ "using " ++ new ++ " in place of " ++ old ++ ": " ++ Word.hexAll words
  | pass number changed =>
    "layout pass " ++ toString number ++ ": changed=" ++ (if changed then "true" else "false")
  | converged passes => "layout converged after " ++ toString passes ++ " finalizing passes"
  | disassembled words chunks labels =>
    "disassembly: " ++ toString words ++ " words, " ++ toString chunks ++ " chunks, " ++
      toString labels ++ " labels"
  | wrote words file => "wrote " ++ toString words ++ " words to " ++ file

def isShown (verbosity : Int) (note : Note) : Bool :=
  match note.level? with
  | some level => level ≤ verbosity
  | none => true

/-- The severity and the message. -/
def text (note : Note) : String := (if note.level?.isSome then "I " else "W ") ++ note.message

def render (verbosity : Int) (notes : List Note) : List String :=
  (notes.filter (isShown verbosity)).flatMap fun note => note.text.splitOn "\n"

end Note

end WordAsm
