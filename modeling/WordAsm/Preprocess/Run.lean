import WordAsm.Preprocess.Directive

/-!
Preprocessing, a line at a time. The innermost reader reads the next line, from its innermost
replay if it has one. `run` goes on until all readers are done.
-/
namespace WordAsm

structure Preprocess where
  work : Work
  readers : List Reader

namespace Preprocess

inductive Outcome where
  | more (next : Preprocess)
  | done (work : Work)
  | failed (work : Work) (failure : Failure)

def canonical (line : Line) : Line :=
  match line.tokens with
  | first :: rest =>
    match Token.directive? first with
    | some name =>
      if Directive.isStatement name then { line with tokens := ("." ++ Text.upper name) :: rest }
      else line
    | none => line
  | [] => line

def locateOuter (outer : List Reader) (failure : Failure) : Failure :=
  match outer.head?.bind Reader.last with
  | some line => failure.locate line
  | none => failure

def locateLast (r : Reader) (fault : Fault) : Failure :=
  match r.last with
  | some line => Failure.locate line ⟨fault, none⟩
  | none => ⟨fault, some ⟨r.file, 0, "", [], ""⟩⟩

def readLine (o : Options) (w : Work) (r : Reader) (outer : List Reader) (line : Line) : Outcome :=
  let line := { line with global := r.top.global }
  let isActive := r.top.isActive
  -- lines are captured as they were read
  let r := r.capture line
  let line := if isActive then canonical line else line
  let r := { r with last := some line }
  match r.handle o w line with
  | .ok (w, readers) => .more ⟨w, readers ++ outer⟩
  | .error fault => .failed w (Failure.locate line ⟨fault, none⟩)

def endFile (w : Work) (r : Reader) (outer : List Reader) : Outcome :=
  match r.fault with
  | some fault => .failed w (locateOuter outer ⟨fault, none⟩)
  | none =>
    if r.below.isEmpty then .more ⟨w, outer⟩
    else .failed w (locateLast r (.unterminated (.openBlocks r.below.length)))

def step (o : Options) (p : Preprocess) : Outcome :=
  match p.readers with
  | [] => .done p.work
  | r :: outer =>
    match r.replays with
    | replay :: replays =>
      match replay.rest with
      | line :: rest =>
        readLine o p.work { r with replays := { replay with rest } :: replays } outer line
      | [] => .failed p.work (locateLast r (.unterminated .replay))
    | [] =>
      match r.pending with
      | line :: pending => readLine o p.work { r with pending } outer line
      | [] => endFile p.work r outer

/-- Takes at most so many steps. -/
def run (o : Options) : Nat → Preprocess → Work × Option Failure
  | 0, p => (p.work, some ⟨.breakdown .endless, none⟩)
  | n + 1, p =>
    match step o p with
    | .more next => run o n next
    | .done work => (work, none)
    | .failed work failure => (work, some failure)

def start (file source : String) : Preprocess := ⟨{}, [Reader.ofSource file source ""]⟩

end Preprocess

/-- Reads a source and everything that it includes. -/
def preprocess (o : Options) (file source : String) : Work × Option Failure :=
  Preprocess.run o o.lineLimit (Preprocess.start file source)

end WordAsm
