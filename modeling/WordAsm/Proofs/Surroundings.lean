import WordAsm.Proofs.Placements

/-!
A text within a source. While a text whose blocks match is read, what comes after it and the
conditional block that it stands in make no difference: these are places of the text.
-/
namespace WordAsm

/-- What is around a text: its last frame may be that of a branch which is taken, in a file with
this namespace, and other lines follow. -/
structure Surroundings where
  branchOf : Option String
  later : List Line
  fault : Option Fault

namespace Surroundings

def frames (s : Surroundings) : List Frame → List Frame
  | [] => []
  | [f] =>
    match s.branchOf with
    | none => [f]
    | some global => [{ f with kind := .conditional, isSettled := true }, .ofFile global]
  | f :: g :: rest => f :: s.frames (g :: rest)

def reader (s : Surroundings) (r : Reader) : Reader :=
  { r with
    pending := r.pending ++ s.later
    fault := s.fault
    top := (s.frames r.frames).headD r.top
    below := (s.frames r.frames).tail
    replays := r.replays.map (·.within s.branchOf.toList.length) }

def around (s : Surroundings) (p : Preprocess) : Preprocess :=
  { p with readers := p.readers.modifyLast s.reader }

def placement (s : Surroundings) : Placement where
  base f :=
    match s.branchOf with
    | none => f
    | some _ => { f with kind := .conditional, isSettled := true }
  below := s.branchOf.toList.map .ofFile
  pending lines := lines ++ s.later
  replays _ := []
  fault := s.fault
  active f := by
    cases s.branchOf <;> rfl
  namespaced f global := by
    cases s.branchOf <;> rfl
  quiet line global := by
    cases s.branchOf <;> rfl
  outside _ _ member := nomatch member
  reads line rest := ⟨line.global, .inl ⟨rfl, rfl, rfl⟩⟩

theorem frames_placement (s : Surroundings) (frames : List Frame) :
    s.placement.frames frames = s.frames frames := by
  induction frames with
  | nil => rfl
  | cons f rest ih =>
    cases rest with
    | nil =>
      simp only [Placement.frames, Surroundings.frames, placement]
      cases s.branchOf <;> rfl
    | cons g rest => simp only [Placement.frames, Surroundings.frames, ih]

theorem around_placement (s : Surroundings) (p : Preprocess) :
    s.placement.around p = s.around p := by
  have same : s.placement.reader = s.reader := by
    funext r
    simp only [Placement.reader, reader, frames_placement]
    simp only [placement, List.append_nil, List.length_map]
  simp only [Placement.around, around, same]

end Surroundings

namespace Preprocess

theorem endsAlike_around {o : Options} {p : Preprocess} (s s' : Surroundings) (within : p.Within)
    (after : ∀ q, Reaches o p q → q.Ended → q.Within → EndsAlike o (s.around q) (s'.around q)) :
    EndsAlike o (s.around p) (s'.around p) := by
  simp only [← Surroundings.around_placement] at after ⊢
  exact endsAlike_placed s.placement s'.placement within after

end Preprocess

end WordAsm
