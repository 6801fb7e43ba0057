import WordAsm.Preprocess.Macro
import WordAsm.Source.Tokenizer

/-!
Readers: one for each file being read. A reader has a stack of frames, one for each block that
is open, and a stack of replays, from which lines are taken before those of the file.
-/
namespace WordAsm

inductive FrameKind where
  | bottom
  | conditional
  | repetition
  /-- A macro that is invoked, or defined, with its signature unless the definition is skipped. -/
  | expansion (definition : Option Signature)
  deriving DecidableEq, Repr

structure Frame where
  kind : FrameKind
  isActive : Bool
  isSettled : Bool := false
  /-- How often a repetition is still to be replayed. -/
  remaining : Nat := 0
  /-- The lines of a repetition, a definition or an expansion, the last one first. -/
  captured : List Line := []
  isReplaying : Bool := false
  global : String := ""
  deriving DecidableEq, Repr

namespace Frame

def captures (f : Frame) : Bool :=
  match f.kind with
  | .repetition | .expansion _ => true
  | .bottom | .conditional => false

def capture (line : Line) (f : Frame) : Frame :=
  if f.captures then { f with captured := line :: f.captured } else f

def captureAll (line : Line) : List Frame → List Frame
  | [] => []
  -- the blocks around a replay have its lines already
  | f :: rest => if f.isReplaying then f :: rest else f.capture line :: captureAll line rest

end Frame

/-- The lines of a block that are read again, and those of them that are still to come. -/
structure Replay where
  /-- How many blocks are around that one. -/
  level : Nat
  body : List Line
  rest : List Line
  deriving DecidableEq, Repr

structure Reader where
  file : String
  /-- The lines of the file that are still to come, and the fault after them. -/
  pending : List Line
  fault : Option Fault
  top : Frame
  /-- The blocks around `top`, the innermost first. -/
  below : List Frame := []
  replays : List Replay := []
  last : Option Line := none

namespace Reader

def ofSource (file source global : String) : Reader :=
  let read := Tokenizer.tokenize file source
  { file, pending := read.lines, fault := read.fault,
    top := { kind := .bottom, isActive := true, global } }

def frames (r : Reader) : List Frame := r.top :: r.below

def push (r : Reader) (f : Frame) : Reader :=
  { r with top := { f with global := r.top.global }, below := r.top :: r.below }

def pushReplay (r : Reader) (f : Frame) (body : List Line) : Reader :=
  { r.push f with replays := ⟨r.below.length + 1, body, body⟩ :: r.replays }

def isSource (r : Reader) : Bool := r.replays.head?.any (·.level == r.below.length)

/-- Closes the innermost block, below which is `outer`. Labels defined in it keep their
namespace open, except in a macro. -/
def pop (r : Reader) (outer : Frame) (below : List Frame) : Reader :=
  let global := match r.top.kind with
    | .expansion _ => outer.global
    | _ => r.top.global
  { r with
    top := { outer with global }
    below
    replays := if r.isSource then r.replays.drop 1 else r.replays }

def replayTop (r : Reader) : Reader :=
  let top := { r.top with remaining := r.top.remaining - 1 }
  if top.isReplaying then
    { r with
      top
      replays := match r.replays with
        | replay :: rest => { replay with rest := replay.body } :: rest
        | [] => [] }
  else
    let body := top.captured.reverse
    { r with
      top := { top with isReplaying := true, isActive := true }
      replays := ⟨r.below.length, body, body⟩ :: r.replays }

def capture (r : Reader) (line : Line) : Reader :=
  match Frame.captureAll line r.frames with
  | top :: below => { r with top, below }
  | [] => r

end Reader

end WordAsm
