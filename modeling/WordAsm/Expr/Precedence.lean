import WordAsm.Text.Basic

/-!
Precedence tables: groups of operators from the tightest binding to the loosest, unary ones
written with a leading `@`. A `Grammar` is a table made ready for scanning.
-/
namespace WordAsm

abbrev Precedence := List (List String)

namespace Precedence

/-- Equality binds tighter than order, and the logical operators come as `&&`, `||`, `^^`. -/
def standard : Precedence :=
  [["@!", "@+", "@~", "@-"],
    ["*", "/", "%"],
    ["+", "-"],
    ["<<", ">>"],
    ["==", "!=", "<>"],
    ["<=", "<", ">=", ">"],
    ["&"],
    ["^"],
    ["|"],
    ["&&"],
    ["||"],
    ["^^"],
    ["=", "+=", "-=", "*=", "/=", "%=", "&=", "|=", "^=", "<<=", ">>="]]

/-- Each entry with the number of its group; of equal entries the last comes first. -/
def entries (table : Precedence) : List (String × Nat) :=
  (table.zipIdx.flatMap fun (ops, g) => ops.map fun op => (op, g)).reverse

end Precedence

structure Grammar where
  groups : Nat
  entries : List (String × Nat)
  spellings : List String
  /-- The bytes that may begin or continue an operator or a bracket. -/
  marks : List UInt8

namespace Grammar

def isFindable (op : String) : Bool :=
  op.toList.all fun c => c != '@' && c != '(' && c != '['

def spelling (entry : String) : List String :=
  match entry.toList with
  | '@' :: rest => [entry, String.ofList rest]
  | _ => [entry]

def ofTable (table : Precedence) : Grammar where
  groups := table.length
  entries := table.entries
  spellings := ((table.flatten.flatMap spelling).filter isFindable).eraseDups
  marks :=
    (('(' :: ')' :: '[' :: ']' :: (table.flatten.flatMap String.toList).filter (· != '@')).flatMap
      Text.encodeChar).eraseDups

def standard : Grammar := ofTable Precedence.standard

def group? (g : Grammar) (entry : String) : Option Nat := g.entries.lookup entry

def longer (best : Option String) (op : String) : Option String :=
  match best with
  | some b => if b.length < op.length then some op else best
  | none => some op

def operator? (g : Grammar) (cs : List Char) : Option String :=
  (g.spellings.filter fun op => op != "" && op.toList.isPrefixOf cs).foldl longer none

def mark? (g : Grammar) (c : Char) : Option (Nat × UInt8) :=
  match (Text.encodeChar c).zipIdx.find? fun (b, _) => g.marks.contains b with
  | some (b, i) => some (i, b)
  | none => none

end Grammar

end WordAsm
