import WordAsm.Statement.StringLiteral

/-!
Data statements: strings, and expressions of a word each. In byte data an expression and an
unpacked character take half a word, the high half first, while packed strings keep their words.
-/
namespace WordAsm

inductive DataItem where
  | string (words : List UInt16) (isPacked : Bool) (raw : String)
  | value (tree last : Expr) (raw : String)
  deriving DecidableEq, Repr

/-- A value on its way into the image; `isWhole` keeps a word in one piece. -/
structure Cell where
  value : UInt16
  isWhole : Bool
  deriving DecidableEq, Repr

structure Data where
  isBytes : Bool
  items : List DataItem
  deriving DecidableEq, Repr

namespace DataItem

def read (s : Symbols) (line : Line) (raw : String) : Except Fault DataItem :=
  if raw.toList.contains '"' then
    match StringLiteral.read (s.literal line) raw with
    | .ok (words, isPacked) => .ok (string words isPacked raw)
    | .error f => .error f
  else
    match s.build line raw with
    | .ok tree => .ok (value tree tree raw)
    | .error f => .error f

def readAll (s : Symbols) (line : Line) : List String → Except Fault (List DataItem)
  | [] => .ok []
  | raw :: rest => do
    let item ← read s line raw
    let later ← readAll s line rest
    return item :: later

def lastText : DataItem → String
  | string _ _ raw => raw
  | value _ last _ => last.text

/-- The cells of an item, and the item as this pass leaves it. -/
def emit (ctx : Context) (line : Line) : DataItem → Except Fault (List Cell) × DataItem
  | string words isPacked raw => (.ok (words.map (⟨·, isPacked⟩)), string words isPacked raw)
  | value tree last raw =>
    match ctx.evaluate line tree with
    | .error f => (.error f, value tree last raw)
    | .ok last =>
      match last with
      | .number n _ => (.ok [⟨lowWord n, false⟩], value tree last raw)
      | _ =>
        if ctx.finalize then (.error (.notLiteral (.text raw last)), value tree last raw)
        else (.ok [⟨0, false⟩], value tree last raw)

def emitAll (ctx : Context) (line : Line) :
    List DataItem → Except Fault (List Cell) × List DataItem
  | [] => (.ok [], [])
  | item :: rest =>
    match item.emit ctx line with
    | (.error f, item) => (.error f, item :: rest)
    | (.ok cells, item) =>
      match emitAll ctx line rest with
      | (.error f, rest) => (.error f, item :: rest)
      | (.ok later, rest) => (.ok (cells ++ later), item :: rest)

end DataItem

namespace Data

def lowByte (w : UInt16) : UInt16 := w &&& 0xFF
def highHalf (w : UInt16) : UInt16 := w <<< 8

def pairCells (high : Option UInt16) : List Cell → List UInt16
  | [] => (high.map highHalf).toList
  | cell :: rest =>
    if cell.isWhole then (high.map highHalf).toList ++ cell.value :: pairCells none rest
    else
      match high with
      | none => pairCells (some (lowByte cell.value)) rest
      | some h => (highHalf h ||| lowByte cell.value) :: pairCells none rest

def words (isBytes : Bool) (cells : List Cell) : List UInt16 :=
  if isBytes then pairCells none cells else cells.map Cell.value

def gathered (words : List UInt16) : Option (List UInt16) :=
  if words.isEmpty then none else some words

def read (s : Symbols) (line : Line) : Except Fault Data := do
  let items ← DataItem.readAll s line line.operands
  return ⟨Text.alike line.first ".DP", items⟩

def lastText (line : Line) (d : Data) : String :=
  joinTokens (line.first :: d.items.map DataItem.lastText)

def emit (ctx : Context) (line : Line) (d : Data) : Except Fault (Option (List UInt16)) × Data :=
  match DataItem.emitAll ctx line d.items with
  | (.error f, items) => (.error f, { d with items })
  | (.ok cells, items) =>
    (.ok (some ((gathered (words d.isBytes cells)).getD [])), { d with items })

end Data

end WordAsm
