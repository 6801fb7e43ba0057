import WordAsm.Options

/-!
Files as a command finds them: what it can read, and where what it writes ends up.
-/
namespace WordAsm.Command

structure Disk extends FileStore where
  /-- The file that writing to a path makes, after the files of a list have been written. -/
  place : List String → String → Except FileFault String

namespace Disk

/-- What a path leads to, by its name from the working directory. -/
inductive Entry where
  | file (name : String) (bytes : List UInt8)
  | directory (name : List String)
  | vacant (name : String)
  deriving DecidableEq, Repr

def nameLimit : Nat := 255

def pathLimit : Nat := 4095

def root : String := "/"

def slashed (name : List String) : String := "/".intercalate name

def above (here : List String) : List String :=
  match here with
  | [] => [".."]
  | [top] => if top == ".." || top == root then [top] else []
  | _ => here.dropLast

def walk (files : List (String × List UInt8)) (created : Bool) (here : List String) :
    List String → Except FileProblem Entry
  | [] => .ok (.directory here)
  | component :: rest =>
    if component == "" || component == "." then walk files created here rest
    else if component == ".." then walk files created (above here) rest
    else if created && !rest.isEmpty && rest.all (· == "") then .error .isDirectory
    else if nameLimit < Text.size component then .error .nameTooLong
    else
      let name := here ++ [component]
      match files.lookup (slashed name) with
      | some bytes =>
        if rest.isEmpty then .ok (.file (slashed name) bytes) else .error .notDirectory
      | none =>
        if FileStore.isDirectory (files.map (·.1)) (slashed name) then
          walk files created name rest
        else if rest.isEmpty then .ok (.vacant (slashed name))
        else .error .noSuchFile

def nullDevice : String := slashed [root, "dev", "null"]

def find (files : List (String × List UInt8)) (created : Bool) (path : String) :
    Except FileProblem Entry :=
  if path == "" then .error .noSuchFile
  else if path.toList.contains '\x00' then .error .invalidArgument
  else if pathLimit < Text.size path then .error .nameTooLong
  else
    walk (files ++ [(nullDevice, [])]) created (if Path.isAbsolute path then [root] else [])
      (path.splitOn "/")

def isInside (name : String) : Bool :=
  match name.splitOn "/" with
  | first :: _ => first != "" && first != ".."
  | [] => false

/-- A working directory with these files in it. -/
def ofList (files : List (String × List UInt8)) : Disk where
  read path :=
    match find files false path with
    | .ok (.file _ bytes) => .ok bytes
    | .ok (.directory _) => .error ⟨"read", path, .isDirectory⟩
    | .ok (.vacant _) => .error ⟨"open", path, .noSuchFile⟩
    | .error problem => .error ⟨"open", path, problem⟩
  place written path :=
    match find (files ++ written.map fun name => (name, [])) true path with
    | .ok (.file name _) | .ok (.vacant name) => .ok name
    | .ok (.directory _) => .error ⟨"open", path, .isDirectory⟩
    | .error problem => .error ⟨"open", path, problem⟩

end Disk

end WordAsm.Command
