import WordAsm.Text.Basic
import WordAsm.Text.Case

/-!
Command-line arguments. Options have a letter and a name, `-p 3`, `-p=3`, `--passes 3` or
`--passes=3`; letters of flags may be joined. Everything else is a positional argument. An
argument that an option has taken as its value counts as empty from then on, and empty arguments
are passed over.
-/
namespace WordAsm.Command

inductive OptionKind where
  | flag
  | text
  | number
  deriving DecidableEq, Repr

structure OptionSpec where
  letter : Char
  name : String
  kind : OptionKind
  help : String
  shown : Option String := none
  deriving DecidableEq, Repr

/-- A command: its options, and its positional arguments with their help. -/
structure Spec where
  name : String
  options : List OptionSpec
  positionals : List (String × String)
  deriving DecidableEq, Repr

inductive Value where
  | flag (b : Bool)
  | text (s : String)
  | number (n : Int)
  deriving DecidableEq, Repr

inductive ArgumentError where
  | unknownLetter (letter : Char)
  | unknownName (name : String)
  | noName
  | missingValue (option : String)
  | noNumber (text : String)
  | outOfRange (text : String)
  /-- Arguments that break the parser. -/
  | breakdown
  deriving DecidableEq, Repr

namespace ArgumentError

def message : ArgumentError → String
  | unknownLetter letter => "-" ++ String.ofList [letter] ++ ": unknown option"
  | unknownName name => "--" ++ name ++ ": unknown option"
  | noName => "long option without a string"
  | missingValue option => option ++ ": missing option parameter"
  | noNumber text => "strconv.Atoi: parsing " ++ Text.quote text ++ ": invalid syntax"
  | outOfRange text => "strconv.Atoi: parsing " ++ Text.quote text ++ ": value out of range"
  | breakdown => "internal error"

end ArgumentError

/-- What the arguments say. Of two values for an option the first in the list counts. -/
structure Parsed where
  values : List (String × Value) := []
  positionals : List String := []
  deriving DecidableEq, Repr

namespace Parsed

def flag (p : Parsed) (name : String) : Bool :=
  match p.values.lookup name with
  | some (.flag b) => b
  | _ => false

def text (p : Parsed) (name : String) : String :=
  match p.values.lookup name with
  | some (.text s) => s
  | _ => ""

def number (p : Parsed) (name : String) (default : Int) : Int :=
  match p.values.lookup name with
  | some (.number n) => n
  | _ => default

def set (p : Parsed) (spec : OptionSpec) (value : Value) : Parsed :=
  { p with values := (spec.name, value) :: p.values }

def positional (p : Parsed) (index : Nat) : String := p.positionals.getD index ""

end Parsed

def truth? (word : String) : Option Bool :=
  let word := Text.lower word
  if ["true", "yes", "on", "1", "t"].contains word then some true
  else if ["false", "no", "off", "0", "f"].contains word then some false
  else none

def magnitude (text : String) (n : Nat) : List Char → Except ArgumentError Nat
  | [] => .ok n
  | c :: rest =>
    if !c.isDigit then .error (.noNumber text)
    else
      let n := 10 * n + (c.toNat - '0'.toNat)
      if n < 1 <<< 64 then magnitude text n rest else .error (.outOfRange text)

/-- A decimal number with an optional sign that fits 64 bits. -/
def number (text : String) : Except ArgumentError Int := do
  let (isNegative, digits) := match text.toList with
    | '-' :: rest => (true, rest)
    | '+' :: rest => (false, rest)
    | rest => (false, rest)
  if digits.isEmpty then throw (.noNumber text)
  let n ← magnitude text 0 digits
  let value : Int := if isNegative then -n else n
  if Int64.minValue.toInt ≤ value && value ≤ Int64.maxValue.toInt then return value
  else throw (.outOfRange text)

/-- An option as it was given: with its letter or by its name. -/
structure Use where
  spec : OptionSpec
  isShort : Bool
  attached : Option String

namespace Use

def spelling (u : Use) : String :=
  if u.isShort then "-" ++ String.ofList [u.spec.letter] else "--" ++ u.spec.name

def flagValue (u : Use) (rest : List String) : Bool × List String :=
  match u.attached, u.isShort with
  | some word, true => ((truth? word).getD false, rest)
  | attached, _ =>
    match attached.bind truth? with
    | some b => (b, rest)
    | none =>
      match rest with
      | next :: later =>
        match truth? next with
        | some b => (b, "" :: later)
        | none => (true, rest)
      | [] => (true, [])

def textValue (u : Use) (rest : List String) : Except ArgumentError (String × List String) :=
  match u.attached.filter (· != "") with
  | some word => .ok (word, rest)
  | none =>
    match rest with
    | next :: later => .ok (next, "" :: later)
    | [] => .error (.missingValue u.spelling)

def value (u : Use) (rest : List String) : Except ArgumentError (Value × List String) :=
  match u.spec.kind with
  | .flag =>
    let (b, rest) := u.flagValue rest
    .ok (.flag b, rest)
  | .text =>
    if u.isShort && (u.attached.filter (· != "")).isSome then .error .breakdown
    else do
      let (s, rest) ← u.textValue rest
      return (.text s, rest)
  | .number => do
    let (s, rest) ← u.textValue rest
    return (.number (← number s), rest)

theorem length_value {u : Use} {rest later : List String} {v : Value}
    (taken : u.value rest = .ok (v, later)) : later.length = rest.length := by
  have flagged : (u.flagValue rest).2.length = rest.length := by
    unfold flagValue
    repeat' split
    all_goals simp_all
  have texted : ∀ {s : String} {tail : List String}, u.textValue rest = .ok (s, tail) →
      tail.length = rest.length := by
    intro s tail read
    unfold textValue at read
    split at read
    · simp only [Except.ok.injEq, Prod.mk.injEq] at read
      rw [read.2]
    · split at read
      · simp only [Except.ok.injEq, Prod.mk.injEq] at read
        rw [← read.2]
        rfl
      · simp at read
  unfold value at taken
  split at taken
  · have := congrArg Prod.snd (Except.ok.inj taken)
    simp only at this
    rw [← this]
    exact flagged
  · split at taken
    · simp at taken
    · cases read : u.textValue rest with
      | error e => simp [read, bind, Except.bind] at taken
      | ok pair =>
        obtain ⟨s, tail⟩ := pair
        simp [read, bind, Except.bind, pure, Except.pure] at taken
        rw [← taken.2]
        exact texted read
  · cases read : u.textValue rest with
    | error e => simp [read, bind, Except.bind] at taken
    | ok pair =>
      obtain ⟨s, tail⟩ := pair
      cases parsed : number s with
      | error e => simp [read, parsed, bind, Except.bind] at taken
      | ok n =>
        simp [read, parsed, bind, Except.bind, pure, Except.pure] at taken
        rw [← taken.2]
        exact texted read

end Use

namespace Spec

def splitValue (cs : List Char) : List Char × Option String :=
  let name := cs.takeWhile (· != '=')
  match cs.drop name.length with
  | _ :: value => (name, some (String.ofList value))
  | [] => (name, none)

def splitLetters (cs : List Char) : List Char × Option String :=
  match splitValue cs with
  | (_, some "") => (cs, none)
  | ([letter], attached) => ([letter], attached)
  | (letters, _) => (letters, none)

def applyLetters (s : Spec) (attached : Option String) (p : Parsed) (rest : List String) :
    List Char → Except ArgumentError (Parsed × List String)
  | [] => .ok (p, rest)
  | c :: later =>
    match s.options.find? (·.letter == c) with
    | none => .error (.unknownLetter c)
    | some spec =>
      match Use.value ⟨spec, true, attached⟩ rest with
      | .error e => .error e
      | .ok (v, rest) => applyLetters s attached (p.set spec v) rest later

theorem length_applyLetters {s : Spec} {attached : Option String} {p q : Parsed}
    {rest tail : List String} {letters : List Char}
    (applied : s.applyLetters attached p rest letters = .ok (q, tail)) :
    tail.length = rest.length := by
  induction letters generalizing p rest with
  | nil =>
    simp [applyLetters] at applied
    rw [applied.2]
  | cons c later ih =>
    simp only [applyLetters] at applied
    split at applied
    · simp at applied
    · split at applied
      · simp at applied
      · rename_i v next taken
        rw [ih applied, Use.length_value taken]

def applyName (s : Spec) (p : Parsed) (text : List Char) (rest : List String) :
    Except ArgumentError (Parsed × List String) :=
  let (name, attached) := splitValue text
  let name := String.ofList name
  match s.options.find? (·.name == name) with
  | none => .error (.unknownName name)
  | some spec =>
    match Use.value ⟨spec, false, attached⟩ rest with
    | .error e => .error e
    | .ok (v, rest) => .ok (p.set spec v, rest)

theorem length_applyName {s : Spec} {p q : Parsed} {text : List Char} {rest tail : List String}
    (applied : s.applyName p text rest = .ok (q, tail)) : tail.length = rest.length := by
  simp only [applyName] at applied
  split at applied
  · simp at applied
  · split at applied
    · simp at applied
    · rename_i v next taken
      simp only [Except.ok.injEq, Prod.mk.injEq] at applied
      rw [← applied.2, Use.length_value taken]

def applyDashed (s : Spec) (p : Parsed) (text : List Char) (rest : List String) :
    Except ArgumentError (Parsed × List String) :=
  match text with
  | [] => .error .breakdown
  | ['-'] => .error .noName
  | '-' :: text => s.applyName p text rest
  | text =>
    let (letters, attached) := splitLetters text
    s.applyLetters attached p rest letters

theorem length_applyDashed {s : Spec} {p q : Parsed} {text : List Char}
    {rest tail : List String} (applied : s.applyDashed p text rest = .ok (q, tail)) :
    tail.length = rest.length := by
  unfold applyDashed at applied
  split at applied
  · simp at applied
  · simp at applied
  · exact length_applyName applied
  · exact length_applyLetters applied

def parseFrom (s : Spec) (p : Parsed) (arguments : List String) : Except ArgumentError Parsed :=
  match arguments with
  | [] => .ok p
  | argument :: rest =>
    match argument.toList with
    | [] => parseFrom s p rest
    | '-' :: text =>
      match _applied : s.applyDashed p text rest with
      | .error e => .error e
      | .ok (p, rest) => parseFrom s p rest
    | _ => parseFrom s { p with positionals := p.positionals ++ [argument] } rest
termination_by arguments.length
decreasing_by
  · simp
  · have := length_applyDashed _applied
    simp only [List.length_cons]
    omega
  · simp

/-- Reads the arguments of a command. -/
def parse (s : Spec) (arguments : List String) : Except ArgumentError Parsed :=
  s.parseFrom {} arguments

def helpOption : OptionSpec := ⟨'h', "help", .flag, "Print this help message.", none⟩

def optionTitle (o : OptionSpec) : String := "-" ++ String.ofList [o.letter] ++ ", --" ++ o.name

def tabs (titles : List String) (title : String) : String :=
  let stop := fun (t : String) => t.length / 8
  String.ofList (List.replicate ((titles.map stop).foldl max 0 - stop title + 1) '\t')

def helpText (s : Spec) : String :=
  let titles := s.options.map optionTitle
  let option := fun (o : OptionSpec) =>
    "\t" ++ optionTitle o ++ tabs titles (optionTitle o) ++ o.help ++
      ((o.shown.map fun d => " (default: " ++ d ++ ")").getD "") ++ "\n"
  let positional := fun (p : String × String) => "\t" ++ p.1 ++ "\t" ++ p.2 ++ "\n"
  "Usage:\n  " ++ s.name ++ " [OPTIONS]..." ++
    String.join (s.positionals.map fun p => " [" ++ p.1 ++ "]") ++
    "\n\nMain options:\n" ++ String.join (s.options.map option) ++
    "\n\nPositional arguments:\n" ++ String.join (s.positionals.map positional) ++ "\n"

end Spec

end WordAsm.Command
