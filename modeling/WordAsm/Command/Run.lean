import WordAsm.Command.Arguments
import WordAsm.Command.Disk
import WordAsm.Fault
import WordAsm.Image.Disassembly
import WordAsm.Program

/-!
Outcomes of commands: what is printed and written, and the exit code. A command is a function from
a disk and its arguments to an outcome.
-/
namespace WordAsm.Command

/-- What a command leaves behind. -/
structure Outcome where
  exit : Nat
  stdout : String := ""
  stderr : List String := []
  writes : List (String × List UInt8) := []
  /-- A file that has to be loaded before the command can go on. -/
  wanted : Option String := none

namespace Outcome

/-- A text as lines. -/
def lines (text : String) : List String := text.splitOn "\n"

def fatal (o : Outcome) (message : String) : Outcome :=
  { o with exit := 1, stderr := o.stderr ++ lines ("F " ++ message) }

/-- Ends the command over a file; one that is not loaded yet is asked for. -/
def refused (o : Outcome) (purpose : String) (fault : FileFault) : Outcome :=
  if fault.problem == .unloaded then { o with wanted := some fault.name }
  else o.fatal (purpose ++ fault.message)

def crashed (stdout : String) : Outcome := { exit := 2, stdout, stderr := ["panic"] }

def misused (e : ArgumentError) : Outcome :=
  if e == .breakdown then crashed "" else { exit := 2, stderr := lines ("Error: " ++ e.message) }

def logged (o : Outcome) (level : Int) (notes : List Note) : Outcome :=
  { o with stderr := o.stderr ++ Note.render level notes }

def write (o : Outcome) (disk : Disk) (purpose path : String) (bytes : List UInt8) :
    Except Outcome Outcome :=
  match disk.place (o.writes.map (·.1)) path with
  | .ok name => .ok { o with writes := o.writes ++ [(name, bytes)] }
  | .error fault => .error (o.refused purpose fault)

end Outcome

def early (spec : Spec) (arguments : List String) : Except Outcome Parsed :=
  if arguments.isEmpty then .error { exit := 0, stdout := spec.helpText }
  else
    match spec.parse arguments with
    | .error e => .error (.misused e)
    | .ok p =>
      if p.flag "help" then .error { exit := 0, stdout := spec.helpText } else .ok p

def verbosity (p : Parsed) : Int := Int.bmod (p.number "verbose" 0) (1 <<< 32)

def finish : Except Outcome Outcome → Outcome
  | .ok o => o
  | .error o => o

/-!
The assembler's command line.
-/

def assembleSpec : Spec where
  name := "asm16"
  options :=
    [Spec.helpOption,
      ⟨'l', "listing", .text, "Write a listing to this file.", none⟩,
      ⟨'I', "include", .text,
        "Directories searched for <bracketed> includes, separated by :.", none⟩,
      ⟨'n', "no-optimize", .flag, "Disable peephole substitutions.", some "false"⟩,
      ⟨'p', "passes", .number, "Finalizing layout passes allowed.",
        some (toString Options.defaultPasses)⟩,
      ⟨'s', "symbols", .flag, "Print the label table to standard error.", some "false"⟩,
      ⟨'d', "disassemble", .flag, "Print a disassembly of the result instead of hex.",
        some "false"⟩,
      ⟨'v', "verbose", .number,
        "Log level: 1 shows substitutions and convergence, 2 every pass.", none⟩]
  positionals :=
    [("INPUT", "Source file to assemble."),
      ("OUTPUT", "Binary output file. Without it the words are printed as hex.")]

def symbolLines (labels : List (String × Int64)) : List String :=
  if labels.isEmpty then ["Symbols: []main.symbol(nil)"]
  else
    "Symbols: []main.symbol\x7b" ::
      labels.flatMap (fun (name, value) =>
        ["  main.symbol\x7b", "    Name:    " ++ Text.quote name ++ ",",
          "    Address: \"0x" ++ Text.hexInt 4 value.toInt ++ "\",", "  \x7d,"]) ++ ["\x7d"]

def assembleOptions (disk : Disk) (p : Parsed) : Options where
  optimize := !p.flag "no-optimize"
  maxPasses := p.number "passes" Options.defaultPasses
  includeDirs := if p.text "include" == "" then [] else (p.text "include").splitOn ":"
  files := disk.toFileStore

def putProgram (disk : Disk) (p : Parsed) (program : Program) (o : Outcome) :
    Except Outcome Outcome :=
  let output := p.positional 1
  if output != "" then do
    let o ← o.write disk "failed to write output: " output program.bytes
    return o.logged (verbosity p) [.wrote program.words.length output]
  else if p.flag "disassemble" then
    match disassemble program.words with
    | .error e => .error (o.fatal ("disassembly error: " ++ e.message))
    | .ok (text, notes) => .ok { o.logged (verbosity p) notes with stdout := o.stdout ++ text }
  else .ok { o with stdout := o.stdout ++ Word.hexAll program.words ++ "\n" }

def deliver (disk : Disk) (p : Parsed) (program : Program) (o : Outcome) :
    Except Outcome Outcome := do
  let symbols := if p.flag "symbols" then symbolLines program.labels else []
  let o := { o with stderr := o.stderr ++ symbols }
  let listing := p.text "listing"
  let o ← if listing == "" then pure o
    else o.write disk "failed to write listing: " listing (Text.encode program.listing)
  putProgram disk p program o

def runAssemble (disk : Disk) (arguments : List String) : Outcome :=
  match early assembleSpec arguments with
  | .error o => o
  | .ok p =>
    let report := WordAsm.assembleFile (assembleOptions disk p) (p.positional 0)
    let o := { exit := 0, stdout := report.echo : Outcome }.logged (verbosity p) report.notes
    match report.outcome with
    | .ok program => finish (deliver disk p program o)
    | .error failure =>
      match failure.fault with
      | .breakdown _ => .crashed report.echo
      | .file _ ⟨_, name, .unloaded⟩ => { o with wanted := some name }
      | _ => o.fatal failure.message

/-!
The disassembler's command line.
-/

def disassembleSpec : Spec where
  name := "dis16"
  options := [Spec.helpOption, ⟨'v', "verbose", .number, "Log level.", none⟩]
  positionals :=
    [("INPUT", "Big-endian memory image."),
      ("OUTPUT", "Source file to write. Standard output if omitted.")]

def putSource (disk : Disk) (output text : String) (o : Outcome) : Except Outcome Outcome :=
  if output == "" then .ok { o with stdout := text }
  else do
    let o ← o.write disk "error writing output file: " output (Text.encode text)
    return { o with stdout := "Disassembly written to " ++ output ++ "\n" }

def runDisassemble (disk : Disk) (arguments : List String) : Outcome :=
  match early disassembleSpec arguments with
  | .error o => o
  | .ok p =>
    let o : Outcome := { exit := 0 }
    match disk.read (p.positional 0) with
    | .error fault => o.refused "error reading input file: " fault
    | .ok bytes =>
      match disassemble (Word.ofBytes bytes) with
      | .error e => o.fatal ("disassembly error: " ++ e.message)
      | .ok (text, notes) =>
        finish (putSource disk (p.positional 1) text (o.logged (verbosity p) notes))

end WordAsm.Command
