import WordAsm.Command.Run

/-!
The commands on the files of the system. A command is run on what is known of the files; when it
asks for another one, or cannot write one, that is found out and the command is run again.
-/
namespace WordAsm.Command

/-- What is known of the files: those that were read, and those that cannot be written. -/
structure Known where
  loaded : List (String × Except FileFault (List UInt8)) := []
  refused : List (String × FileFault) := []

def Known.disk (k : Known) : Disk where
  read path := (k.loaded.lookup path).getD (.error ⟨"open", path, .unloaded⟩)
  place _ path :=
    match k.refused.lookup path with
    | some fault => .error fault
    | none => .ok path

def faultOf (action path : String) : IO.Error → FileFault
  | .noFileOrDirectory .. => ⟨"open", path, .noSuchFile⟩
  | .permissionDenied .. => ⟨"open", path, .other "permission denied"⟩
  | .inappropriateType _ code _ =>
    if code == 21 || code == -21 then ⟨action, path, .isDirectory⟩
    else ⟨"open", path, .notDirectory⟩
  | .invalidArgument _ code _ =>
    if code == 36 || code == -36 then ⟨"open", path, .nameTooLong⟩
    else ⟨"open", path, .invalidArgument⟩
  | e => ⟨action, path, .other (toString e)⟩

def load (path : String) : IO (Except FileFault (List UInt8)) := do
  if path == "" then return .error ⟨"open", path, .noSuchFile⟩
  try
    let bytes ← IO.FS.readBinFile path
    return .ok bytes.toList
  catch e =>
    return .error (faultOf "read" path e)

def save : List (String × List UInt8) → IO (Option FileFault)
  | [] => return none
  | (path, bytes) :: rest => do
    try
      IO.FS.writeBinFile path ⟨bytes.toArray⟩
    catch e =>
      return some (faultOf "open" path e)
    save rest

partial def perform (run : Disk → Outcome) (known : Known) : IO UInt32 := do
  let o := run known.disk
  match o.wanted with
  | some path => perform run { known with loaded := (path, ← load path) :: known.loaded }
  | none =>
    match ← save o.writes with
    | some fault => perform run { known with refused := (fault.name, fault) :: known.refused }
    | none =>
      (← IO.getStdout).write (Text.encode o.stdout).toByteArray
      o.stderr.forM fun line => do
        (← IO.getStderr).write (Text.encode (line ++ "\n")).toByteArray
      return o.exit.toUInt32

end WordAsm.Command

def main (arguments : List String) : IO UInt32 :=
  match arguments with
  | "asm16" :: rest => WordAsm.Command.perform (WordAsm.Command.runAssemble · rest) {}
  | "dis16" :: rest => WordAsm.Command.perform (WordAsm.Command.runDisassemble · rest) {}
  | _ => do
    IO.eprintln "Usage: wordasm (asm16 | dis16) [ARGUMENTS]..."
    return 2
