import Std.Data.TreeMap
import WordAsm.Fault
import WordAsm.Machine.Argument

/-!
Symbols: labels, which mark lines, and constants. Names are kept in upper case, both kinds are
written once, and only constants can be dropped. Local labels, whose names begin with an
underscore, belong to the namespace of the global label before them.
-/
namespace WordAsm

/-- A label marks the line with that index; `offset` is added to the line's position. -/
structure Label where
  line : Int
  offset : Int64
  deriving DecidableEq, Repr, Inhabited

structure Symbols where
  labels : Std.TreeMap String Label := {}
  constants : Std.TreeMap String Int64 := {}
  deriving Inhabited

namespace Symbols

def isLocal (name : String) : Bool := name.toList.head? == some '_'

def key (name global : String) : String :=
  if isLocal name then Text.upper (global ++ name) else Text.upper name

def scopedKey (qualifier name global : String) : String := Text.upper qualifier ++ key name global

def isUnusable (name : String) : Bool := name == "" || isRegister name

def globalAfter (name global : String) : String :=
  if isLocal name then global else Text.upper name ++ "::"

def addLabel (s : Symbols) (name : String) (scope : Scope) (global : String) (label : Label) :
    (Symbols × String) × Option Fault :=
  if isUnusable name then ((s, global), some (.label (.label name)))
  else
    let k := scopedKey scope.qualifier name global
    if s.constants.contains k then ((s, global), some (.redefined (.labelOverConstant name)))
    else if s.labels.contains k then ((s, global), some (.redefined (.labelOverLabel name)))
    else (({ s with labels := s.labels.insert k label }, globalAfter name global), none)

def define (s : Symbols) (name : String) (value : Int64) : Symbols × Option Fault :=
  if isUnusable name then (s, some (.label (.constant name)))
  else
    let k := Text.upper name
    if s.constants.contains k then (s, some (.redefined (.constantOverConstant name)))
    else if s.labels.contains k then (s, some (.redefined (.constantOverLabel name)))
    else ({ s with constants := s.constants.insert k value }, none)

def undefine (s : Symbols) (name : String) : Symbols :=
  { s with constants := s.constants.erase (Text.upper name) }

def constant? (s : Symbols) (name : String) : Option Int64 := s.constants[Text.upper name]?

/-- The label that a name means on a line, with its key: the scope is widened one fragment at a
time before the name is tried outside of any scope. -/
def find? (s : Symbols) (name global : String) (scope : Scope) : Option (String × Label) :=
  ((scope.qualifiers.map fun q => scopedKey q name global) ++ [key name global]).findSome?
    fun k => (s.labels[k]?).map fun l => (k, l)

def isDefined (s : Symbols) (name global : String) (scope : Scope) : Bool :=
  (s.constant? name).isSome || (s.find? name global scope).isSome

end Symbols

end WordAsm

/-!
Sessions: one call on the tables after the other. A call that is refused leaves the tables as they
are, and the namespace that it was given stays in effect.
-/
namespace WordAsm.Symbols

inductive Call where
  | addLabel (name : String) (scope : Scope) (global : String) (label : Label)
  | define (name : String) (value : Int64)
  | undefine (name : String)
  deriving DecidableEq, Repr

structure Answer where
  /-- The namespace of local labels from then on, if the call is about a label. -/
  global : Option String := none
  fault : Option Fault := none

def perform (s : Symbols) : Call → Symbols × Answer
  | .addLabel name scope global label =>
    match s.addLabel name scope global label with
    | ((after, next), fault) => (after, { global := some next, fault })
  | .define name value =>
    match s.define name value with
    | (after, fault) => (after, { fault })
  | .undefine name => (s.undefine name, {})

def performAll (s : Symbols) (calls : List Call) : Symbols :=
  calls.foldl (fun s call => (s.perform call).1) s

end WordAsm.Symbols
