import WordAsm.Layout
import WordAsm.Preprocess.Run

/-!
Programs: the words of a source with its listing and its labels.
-/
namespace WordAsm

/-- A line that became words. -/
structure Listed where
  file : String
  number : Nat
  position : Nat
  /-- The line as it is written, and as it was last simplified. -/
  source : String
  resolved : String
  words : List UInt16
  deriving DecidableEq, Repr

structure Program where
  lines : List Listed
  /-- Labels by value, those of one value by name. -/
  labels : List (String × Int64)
  deriving DecidableEq, Repr

namespace Program

def words (p : Program) : List UInt16 := p.lines.flatMap Listed.words

def bytes (p : Program) : List UInt8 := Word.toBytes p.words

def list (position : Nat) : List Slot → List Listed
  | [] => []
  | slot :: rest =>
    let line := slot.statement.line
    ⟨line.file, line.number, position, line.text, slot.statement.lastText, slot.words.getD []⟩ ::
      list (position + slot.size) rest

def placed (symbols : Symbols) (slots : List Slot) : List (String × Int64) :=
  symbols.labels.toList.filterMap fun (key, label) =>
    (Layout.position slots label.line.toNat).map fun pos => (key, Int64.ofNat pos + label.offset)

def labelLE (a b : String × Int64) : Bool := a.2 < b.2 || (a.2 == b.2 && a.1 ≤ b.1)

def ofSlots (symbols : Symbols) (slots : List Slot) : Program :=
  ⟨list 0 slots, (placed symbols slots).mergeSort labelLE⟩

def column (width : Nat) (text : String) : String :=
  String.ofList (Text.padRight width ' ' text.toList)

def widest (texts : List String) : Nat := (texts.map Text.size).foldl max 0

def listingLine (sourceWidth resolvedWidth : Nat) (l : Listed) : String :=
  " " ++ column sourceWidth l.source ++ " ; " ++ column resolvedWidth l.resolved ++ " ; " ++
    String.ofList (Text.padLeft 5 ' ' (toString l.position).toList) ++ " " ++
    Text.hex 4 l.position ++ ": " ++ Word.hexAll l.words ++ "\n"

def listing (p : Program) : String :=
  String.join (p.lines.map
    (listingLine (widest (p.lines.map Listed.source)) (widest (p.lines.map Listed.resolved))))

end Program

structure Report where
  outcome : Except Failure Program
  echo : String
  notes : List Note

/-- Assembles a source. -/
def assemble (o : Options) (file source : String) : Report :=
  match preprocess o file source with
  | (w, some failure) => ⟨.error failure, String.join w.echo.reverse, w.notes.reverse⟩
  | (w, none) =>
    let settled := Layout.run o w.symbols w.statements.reverse
    let outcome := match settled.failure with
      | some failure => .error failure
      | none => .ok (Program.ofSlots w.symbols settled.slots)
    ⟨outcome, String.join w.echo.reverse, w.notes.reverse ++ settled.notes⟩

def assembleFile (o : Options) (path : String) : Report :=
  match o.files.read path with
  | .error fault => ⟨.error ⟨.file none fault, none⟩, "", []⟩
  | .ok bytes => assemble o path (Text.decode bytes)

end WordAsm
