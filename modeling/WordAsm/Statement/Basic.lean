import WordAsm.Statement.Data
import WordAsm.Statement.Instruction
import WordAsm.Statement.Padding

/-!
Statements: the lines that become words.
-/
namespace WordAsm

inductive Body where
  | instruction (i : Instruction)
  | data (d : Data)
  | fill (f : Fill)
  | align (a : Align)
  deriving DecidableEq, Repr

structure Statement where
  line : Line
  body : Body
  deriving DecidableEq, Repr

/-- What emitting a statement gives: words or a fault, the statement as the pass leaves it, and
notes for the log. -/
structure Emission where
  outcome : Except Fault (List UInt16)
  statement : Statement
  notes : List Note

namespace Body

def kinds : List String := ["instruction", "data", "fill", "align"]

def kind : Body → String
  | instruction _ => "instruction"
  | data _ => "data"
  | fill _ => "fill"
  | align _ => "align"

def kindName (n : Int) : String :=
  if n < 0 then "NodeType(" ++ toString n ++ ")"
  else (kinds[n.toNat]?).getD ("NodeType(" ++ toString n ++ ")")

def read (s : Symbols) (line : Line) : Except Fault Body :=
  match Text.upper line.first with
  | ".ALIGN" => do return align (← Align.read s line)
  | "DAT" | ".DW" | ".DP" | ".ASCII" => do return data (← Data.read s line)
  | ".FILL" => do return fill (← Fill.read s line)
  | _ => do return instruction (← Instruction.read s line)

end Body

namespace Statement

def read (s : Symbols) (line : Line) : Except Fault Statement := do
  return ⟨line, ← Body.read s line⟩

def lastText (s : Statement) : String :=
  match s.body with
  | .instruction i => i.lastText
  | .data d => d.lastText s.line
  | .fill f => f.lastText s.line
  | .align a => a.lastText s.line

def stored (outcome : Except Fault (Option (List UInt16))) : Except Fault (List UInt16) :=
  outcome.map fun words => words.getD []

/-- Emits a statement at a position; `old` is the number of words that it had before. -/
def emit (optimize : Bool) (ctx : Context) (position : Int) (old : Option Nat) (s : Statement) :
    Emission :=
  match s.body with
  | .instruction i =>
    match i.emit optimize ctx s.line position with
    | (outcome, i, notes) => ⟨stored (outcome.map some), { s with body := .instruction i }, notes⟩
  | .data d =>
    match d.emit ctx s.line with
    | (outcome, d) => ⟨stored outcome, { s with body := .data d }, []⟩
  | .fill f =>
    match f.emit ctx s.line old with
    | (outcome, f, notes) => ⟨stored outcome, { s with body := .fill f }, notes⟩
  | .align a =>
    match a.emit ctx s.line position old with
    | (outcome, a) => ⟨stored outcome, { s with body := .align a }, []⟩

end Statement

end WordAsm
