import WordAsm.Fault

/-!
How a source is assembled, and the files that it may include: a name gives the bytes of a file, or
what went wrong.
-/
namespace WordAsm.Path

def isAbsolute (path : String) : Bool := path.toList.head? == some '/'

/-- One more component after those of `seen`, which has the last component first. -/
def step (rooted : Bool) (seen : List String) (component : String) : List String :=
  if component == "" || component == "." then seen
  else if component == ".." then
    match seen with
    | last :: rest => if last == ".." then ".." :: seen else rest
    | [] => if rooted then [] else [".."]
  else component :: seen

/-- The shortest path that means the same without looking at any file. -/
def clean (path : String) : String :=
  let rooted := isAbsolute path
  let body := "/".intercalate ((path.splitOn "/").foldl (step rooted) []).reverse
  if rooted then "/" ++ body else if body == "" then "." else body

def join (dir path : String) : String :=
  if dir == "" then if path == "" then "" else clean path
  else if path == "" then clean dir
  else clean (dir ++ "/" ++ path)

def parent (path : String) : String :=
  clean (String.ofList (path.toList.reverse.dropWhile (· != '/')).reverse)

end WordAsm.Path

namespace WordAsm

structure FileStore where
  read : String → Except FileFault (List UInt8)

namespace FileStore

def isDirectory (names : List String) (name : String) : Bool :=
  name == "." || names.any fun n => (name ++ "/").toList.isPrefixOf n.toList

def ofList (files : List (String × List UInt8)) : FileStore where
  read name :=
    let name := Path.clean name
    match files.lookup name with
    | some bytes => .ok bytes
    | none =>
      if isDirectory (files.map (·.1)) name then .error ⟨"read", name, .invalidArgument⟩
      else .error ⟨"open", name, .doesNotExist⟩

def empty : FileStore := ofList []

end FileStore

structure Options where
  optimize : Bool := true
  /-- How many finalizing passes are allowed; a number below one means the default. -/
  maxPasses : Int := 8
  includeDirs : List String := []
  files : FileStore := .empty
  /-- How many lines preprocessing may read, repeated and expanded ones counted each time. -/
  lineLimit : Nat := 1 <<< 62

namespace Options

def defaultPasses : Nat := 8

/-- The number of finalizing passes that are allowed. -/
def passes (o : Options) : Nat := if o.maxPasses ≤ 0 then defaultPasses else o.maxPasses.toNat

end Options

end WordAsm
