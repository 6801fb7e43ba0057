import WordAsm.Proofs.PreprocessRuns
import WordAsm.Proofs.PreprocessStep

/-!
Blocks of a text and the frames of its reader. The lines of a text open and close blocks; a reader
has a frame for each block that is open, above them the frames of repetitions and macros whose
lines are read again, and below all of them the frame of the file. In a text whose blocks match,
that last frame is never closed.
-/
namespace WordAsm

/-- What a directive does to the open blocks. -/
inductive BlockFlow where
  /-- Opens a block, which may be a conditional one. -/
  | opening (isConditional : Bool)
  /-- Goes on with the branches of a conditional block. -/
  | continuing
  | closing
  deriving DecidableEq

namespace BlockFlow

def ofName? (name : String) : Option BlockFlow :=
  match name with
  | "if" | "ifdef" | "ifndef" => some (opening true)
  | "rep" | "macro" => some (opening false)
  | "elif" | "elsif" | "elseif" | "else" => some continuing
  | "end" => some closing
  | _ => none

def ofTokens? (tokens : List String) : Option BlockFlow :=
  (Token.directive? (tokens.headD "")).bind ofName?

/-- The open blocks after a line, the innermost first: for each, whether it is conditional. -/
def after (blocks : List Bool) (tokens : List String) : Option (List Bool) :=
  match ofTokens? tokens with
  | some (opening isConditional) => some (isConditional :: blocks)
  | some continuing => if blocks.head? = some true then some blocks else none
  | some closing => blocks.tail?
  | none => some blocks

/-- The lines close the open blocks and those that they open, and branches stand directly in
conditional blocks. -/
def isBalanced (blocks : List Bool) : List (List String) → Bool
  | [] => blocks.isEmpty
  | tokens :: rest => (after blocks tokens).any fun blocks => isBalanced blocks rest

theorem isFlow_of_ofName {name : String} : (ofName? name).isSome = Directive.isFlow name := by
  unfold ofName?
  split
  iterate 10 rfl
  simp_all [Directive.isFlow]

end BlockFlow

namespace Frame

def ofFile (global : String) : Frame := { kind := .bottom, isActive := true, global }

/-! Replays and the frames that they are read for. -/

def shape (f : Frame) : Frame := { f with captured := [], global := "" }

theorem shape_captureAll (line : Line) (frames : List Frame) :
    (captureAll line frames).map shape = frames.map shape := by
  induction frames with
  | nil => rfl
  | cons f rest ih =>
    simp only [captureAll]
    split
    · rfl
    · simp only [List.map_cons, ih, capture]
      split <;> rfl

theorem alike_of_shape {f f' : Frame} (same : f'.shape = f.shape) :
    f'.kind = f.kind ∧ f'.isReplaying = f.isReplaying := by
  change f'.shape.kind = f.shape.kind ∧ f'.shape.isReplaying = f.shape.isReplaying
  rw [same]
  exact ⟨rfl, rfl⟩

/-- For each frame that is replaying, how many are below it. -/
def levels : List Frame → List Nat
  | [] => []
  | f :: rest => if f.isReplaying then rest.length :: levels rest else levels rest

theorem lt_of_levels {frames : List Frame} {level : Nat} (member : level ∈ levels frames) :
    level < frames.length := by
  induction frames with
  | nil => cases member
  | cons f rest ih =>
    rw [levels] at member
    rw [List.length_cons]
    split at member
    · rcases List.mem_cons.1 member with rfl | later
      · exact Nat.lt_succ_self _
      · exact Nat.lt_succ_of_lt (ih later)
    · exact Nat.lt_succ_of_lt (ih member)

theorem any_isReplaying (frames : List Frame) :
    frames.any isReplaying = !(levels frames).isEmpty := by
  induction frames with
  | nil => rfl
  | cons f rest ih =>
    rw [List.any_cons, levels, ih]
    cases f.isReplaying <;> rfl

theorem levels_of_shape {frames frames' : List Frame}
    (same : frames'.map shape = frames.map shape) : levels frames' = levels frames := by
  induction frames generalizing frames' with
  | nil =>
    rw [List.map_nil, List.map_eq_nil_iff] at same
    rw [same]
  | cons f rest ih =>
    obtain ⟨f', rest', rfl, here, later⟩ := List.map_eq_cons_iff.1 same
    have length : rest'.length = rest.length := by simpa using congrArg List.length later
    rw [levels, levels, (alike_of_shape here).2, ih later, length]

end Frame

namespace Reader

section

variable {r : Reader}

theorem frames_capture (line : Line) (r : Reader) :
    (r.capture line).frames = Frame.captureAll line r.frames := by
  unfold capture
  cases shown : Frame.captureAll line r.frames with
  | nil =>
    simp only [frames, Frame.captureAll] at shown
    split at shown <;> cases shown
  | cons top below => rfl

theorem capture_eq (line : Line) (r : Reader) :
    ∃ top below, r.capture line = { r with top, below } := by
  unfold capture
  split
  · exact ⟨_, _, rfl⟩
  · exact ⟨r.top, r.below, rfl⟩

theorem replays_capture (line : Line) (r : Reader) :
    (r.capture line).replays = r.replays ∧ (r.capture line).pending = r.pending := by
  obtain ⟨top, below, shown⟩ := capture_eq line r
  rw [shown]
  exact ⟨rfl, rfl⟩

def Sourced (r : Reader) : Prop := r.replays.map Replay.level = Frame.levels r.frames

theorem Sourced.isSource (sourced : r.Sourced) : r.isSource = r.top.isReplaying := by
  have all : r.replays.map Replay.level = Frame.levels (r.top :: r.below) := sourced
  rw [Frame.levels] at all
  unfold Reader.isSource
  cases replaying : r.top.isReplaying with
  | true =>
    rw [replaying, if_pos rfl] at all
    obtain ⟨replay, rest, stack, level, _⟩ := List.map_eq_cons_iff.1 all
    simp [stack, level]
  | false =>
    rw [replaying, if_neg (by decide)] at all
    cases stack : r.replays with
    | nil => rfl
    | cons replay rest =>
      have member : replay.level ∈ Frame.levels r.below := by simp [← all, stack]
      simp [Nat.ne_of_lt (Frame.lt_of_levels member)]

theorem Sourced.set_top (sourced : r.Sourced) {f : Frame}
    (replaying : f.isReplaying = r.top.isReplaying) : Sourced { r with top := f } := by
  unfold Sourced at sourced ⊢
  simp only [frames, Frame.levels, replaying] at sourced ⊢
  exact sourced

theorem Sourced.push (sourced : r.Sourced) {f : Frame} (fresh : f.isReplaying = false) :
    (r.push f).Sourced := by
  unfold Sourced at sourced ⊢
  simp only [frames, Reader.push, Frame.levels, fresh] at sourced ⊢
  exact sourced

theorem Sourced.push_replay (sourced : r.Sourced) {f : Frame} (again : f.isReplaying = true)
    (body : List Line) : (r.pushReplay f body).Sourced := by
  unfold Sourced at sourced ⊢
  simp only [frames, Reader.pushReplay, Reader.push, List.map_cons, sourced]
  simp only [Frame.levels, again, if_true, List.length_cons]

theorem Sourced.pop (sourced : r.Sourced) {outer : Frame} {below : List Frame}
    (stack : r.below = outer :: below) : (r.pop outer below).Sourced := by
  have source := sourced.isSource
  unfold Sourced at sourced ⊢
  simp only [frames, stack] at sourced
  have closed : Frame.levels ((r.pop outer below).top :: below) = Frame.levels (outer :: below) :=
    rfl
  change (if r.isSource then r.replays.drop 1 else r.replays).map Replay.level =
    Frame.levels ((r.pop outer below).top :: below)
  rw [closed, source]
  rw [Frame.levels] at sourced
  cases replaying : r.top.isReplaying with
  | true =>
    rw [replaying, if_pos rfl] at sourced
    rw [if_pos rfl, List.map_drop, sourced]
    rfl
  | false =>
    rw [replaying, if_neg (by decide)] at sourced
    rw [if_neg (by decide), sourced]

theorem replayTop_eq (r : Reader) : ∃ f replays, r.replayTop = { r with top := f, replays } ∧
    f.isReplaying = true := by
  unfold replayTop
  dsimp only
  split
  · rename_i replaying
    exact ⟨_, _, rfl, replaying⟩
  · exact ⟨_, _, rfl, rfl⟩

theorem Sourced.replay_top (sourced : r.Sourced) : r.replayTop.Sourced := by
  unfold Sourced at sourced ⊢
  simp only [frames, Frame.levels] at sourced
  unfold Reader.replayTop
  dsimp only
  split
  · rename_i replaying
    rw [replaying, if_pos rfl] at sourced
    obtain ⟨replay, rest, stack, level, later⟩ := List.map_eq_cons_iff.1 sourced
    simp only [frames, Frame.levels, replaying, if_true, stack, List.map_cons, level, later]
  · rename_i replaying
    rw [if_neg replaying] at sourced
    simp only [frames, Frame.levels, if_true, List.map_cons, sourced]

theorem Sourced.capture (sourced : r.Sourced) (line : Line) : (r.capture line).Sourced := by
  unfold Sourced at sourced ⊢
  rw [(replays_capture line r).1, frames_capture,
    Frame.levels_of_shape (Frame.shape_captureAll line r.frames)]
  exact sourced

end

end Reader

namespace Frame

/-- The blocks of the text among the frames of its reader: those below the frames that lines are
read again for. -/
def blocks : List Frame → List Bool
  | [] | [_] => []
  | f :: g :: rest =>
    if (f :: g :: rest).any isReplaying then blocks (g :: rest)
    else (f.kind == .conditional) :: blocks (g :: rest)

theorem blocks_cons (f : Frame) {rest : List Frame} (some : rest ≠ []) :
    blocks (f :: rest) = if (f :: rest).any isReplaying then blocks rest
      else (f.kind == .conditional) :: blocks rest := by
  cases rest with
  | nil => exact absurd rfl some
  | cons g rest => rfl

theorem blocks_congr {f f' : Frame} (rest : List Frame) (kind : f'.kind = f.kind)
    (replaying : f'.isReplaying = f.isReplaying) : blocks (f' :: rest) = blocks (f :: rest) := by
  cases rest with
  | nil => rfl
  | cons g rest =>
    have any : (f' :: g :: rest).any isReplaying = (f :: g :: rest).any isReplaying := by
      rw [List.any_cons, replaying, ← List.any_cons]
    rw [blocks_cons f (by simp), blocks_cons f' (by simp), any, kind]

end Frame

namespace Reader

/-- The reader of a text has these blocks of it open. -/
structure Opens (r : Reader) (blocks : List Bool) : Prop where
  base : ∃ global, r.frames.getLast? = some (.ofFile global)
  sourced : r.Sourced
  blocks : Frame.blocks r.frames = blocks

section

variable {r : Reader} {blocks : List Bool}

theorem Opens.any (opens : r.Opens blocks) :
    r.frames.any Frame.isReplaying = !r.replays.isEmpty := by
  have all : r.replays.map Replay.level = Frame.levels r.frames := opens.sourced
  rw [Frame.any_isReplaying, ← all]
  cases r.replays <;> rfl

theorem Opens.bottom (opens : r.Opens blocks) (alone : r.below = []) :
    (∃ global, r.top = .ofFile global) ∧ r.replays = [] ∧ blocks = [] := by
  obtain ⟨global, base⟩ := opens.base
  have replaying := opens.any
  have none := opens.blocks
  simp only [frames, alone, List.getLast?_singleton, Option.some.injEq] at base replaying none
  refine ⟨⟨global, base⟩, ?_, none.symm⟩
  rw [base] at replaying
  simpa [Frame.ofFile] using replaying

theorem Opens.cons (opens : r.Opens blocks) (some : r.below ≠ []) :
    blocks = if r.replays.isEmpty then (r.top.kind == .conditional) :: Frame.blocks r.below
      else Frame.blocks r.below := by
  have replaying := opens.any
  rw [← opens.blocks]
  simp only [frames] at replaying ⊢
  rw [Frame.blocks_cons _ some, replaying]
  cases r.replays.isEmpty <;> rfl

theorem Opens.set_top (opens : r.Opens blocks) {f : Frame} (kind : f.kind = r.top.kind)
    (replaying : f.isReplaying = r.top.isReplaying)
    (base : ∀ global, r.top = .ofFile global → ∃ global', f = .ofFile global') :
    Opens { r with top := f } blocks := by
  refine ⟨?_, ?_, ?_⟩
  · obtain ⟨global, last⟩ := opens.base
    simp only [frames] at last ⊢
    cases stack : r.below with
    | nil =>
      rw [stack, List.getLast?_singleton, Option.some.injEq] at last
      obtain ⟨global', same⟩ := base global last
      exact ⟨global', by rw [List.getLast?_singleton, same]⟩
    | cons g below =>
      rw [stack, List.getLast?_cons_cons] at last
      exact ⟨global, by rw [List.getLast?_cons_cons, last]⟩
  · exact opens.sourced.set_top replaying
  · rw [← opens.blocks]
    exact Frame.blocks_congr r.below kind replaying

theorem Opens.push (opens : r.Opens blocks) {f : Frame} (fresh : f.isReplaying = false) :
    (r.push f).Opens (if r.replays.isEmpty then (f.kind == .conditional) :: blocks
      else blocks) := by
  have replaying := opens.any
  refine ⟨?_, ?_, ?_⟩
  · obtain ⟨global, last⟩ := opens.base
    exact ⟨global, last⟩
  · exact opens.sourced.push fresh
  · simp only [frames] at replaying
    simp only [frames, Reader.push]
    rw [Frame.blocks_cons _ (by simp), List.any_cons, replaying, fresh, Bool.false_or]
    have same : Frame.blocks (r.top :: r.below) = blocks := opens.blocks
    rw [same]
    cases r.replays.isEmpty <;> rfl

theorem Opens.push_replay (opens : r.Opens blocks) {f : Frame} (again : f.isReplaying = true)
    (body : List Line) : (r.pushReplay f body).Opens blocks := by
  refine ⟨?_, ?_, ?_⟩
  · obtain ⟨global, last⟩ := opens.base
    exact ⟨global, last⟩
  · exact opens.sourced.push_replay again body
  · simp only [frames, Reader.pushReplay, Reader.push]
    rw [Frame.blocks_cons _ (by simp), List.any_cons, again, Bool.true_or, if_pos rfl]
    exact opens.blocks

theorem Opens.tail (opens : r.Opens blocks) (some : r.below ≠ []) :
    Frame.blocks r.below = if r.replays.isEmpty then blocks.tail else blocks := by
  rw [opens.cons some]
  cases r.replays.isEmpty <;> rfl

theorem Opens.pop (opens : r.Opens blocks) {outer : Frame} {below : List Frame}
    (stack : r.below = outer :: below) :
    (r.pop outer below).Opens (if r.replays.isEmpty then blocks.tail else blocks) := by
  rw [← opens.tail (by simp [stack]), stack]
  refine ⟨?_, ?_, ?_⟩
  · obtain ⟨global, last⟩ := opens.base
    simp only [frames, stack, List.getLast?_cons_cons] at last
    simp only [frames, Reader.pop]
    cases below with
    | nil =>
      rw [List.getLast?_singleton, Option.some.injEq] at last
      rw [last]
      exact ⟨_, rfl⟩
    | cons g below =>
      rw [List.getLast?_cons_cons] at last
      exact ⟨global, by rw [List.getLast?_cons_cons, last]⟩
  · exact opens.sourced.pop stack
  · exact Frame.blocks_congr below rfl rfl

theorem Opens.replay_top (opens : r.Opens blocks) (some : r.below ≠ []) :
    r.replayTop.Opens (if r.replays.isEmpty then blocks.tail else blocks) := by
  rw [← opens.tail some]
  obtain ⟨f, replays, started, again⟩ := replayTop_eq r
  obtain ⟨g, below, stack⟩ := List.exists_cons_of_ne_nil some
  have sourced := opens.sourced.replay_top
  rw [started] at sourced ⊢
  refine ⟨?_, sourced, ?_⟩
  · obtain ⟨global, last⟩ := opens.base
    refine ⟨global, ?_⟩
    simp only [frames, stack, List.getLast?_cons_cons] at last ⊢
    exact last
  · change Frame.blocks (f :: r.below) = Frame.blocks r.below
    rw [Frame.blocks_cons f some, List.any_cons, again, Bool.true_or, if_pos rfl]

/-- The blocks of the text after a line: lines that are read again do not belong to it. -/
def moves (r : Reader) (blocks : List Bool) (tokens : List String) : Option (List Bool) :=
  if r.replays.isEmpty then BlockFlow.after blocks tokens else some blocks

section

variable {tokens : List String} {blocks' : List Bool}

theorem moves_opening {isConditional : Bool}
    (flow : BlockFlow.ofTokens? tokens = some (.opening isConditional))
    (moves : r.moves blocks tokens = some blocks') :
    blocks' = if r.replays.isEmpty then isConditional :: blocks else blocks := by
  simp only [Reader.moves, BlockFlow.after, flow] at moves
  split at moves <;> rename_i file <;> cases moves
  · rw [if_pos file]
  · rw [if_neg file]

theorem moves_continuing (flow : BlockFlow.ofTokens? tokens = some .continuing)
    (moves : r.moves blocks tokens = some blocks') : blocks' = blocks := by
  simp only [Reader.moves, BlockFlow.after, flow] at moves
  split at moves
  · split at moves
    · cases moves
      rfl
    · cases moves
  · cases moves
    rfl

theorem moves_closing (flow : BlockFlow.ofTokens? tokens = some .closing)
    (moves : r.moves blocks tokens = some blocks') :
    blocks' = if r.replays.isEmpty then blocks.tail else blocks := by
  simp only [Reader.moves, BlockFlow.after, flow] at moves
  split at moves <;> rename_i file
  · rw [if_pos file]
    cases blocks with
    | nil => cases moves
    | cons b rest =>
      cases moves
      rfl
  · rw [if_neg file]
    cases moves
    rfl

theorem moves_none (flow : BlockFlow.ofTokens? tokens = none)
    (moves : r.moves blocks tokens = some blocks') : blocks' = blocks := by
  simp only [Reader.moves, BlockFlow.after, flow] at moves
  split at moves <;> cases moves <;> rfl

end

end

end Reader

namespace Directive

section

variable {o : Options} {w w' : Work} {r : Reader} {line : Line} {name : String}
  {blocks blocks' : List Bool} {readers : List Reader}

def Leaves (r : Reader) (blocks : List Bool) (readers : List Reader) : Prop :=
  ∃ inner r', readers = inner ++ [r'] ∧ r'.Opens blocks ∧ r'.pending = r.pending

theorem leaves_onWork {made : Except Fault Work} (opens : r.Opens blocks)
    (applied : onWork r made = .ok (w', readers)) : Leaves r blocks readers := by
  obtain ⟨_, _, same⟩ := bind_ok applied
  cases same
  exact ⟨[], r, rfl, opens, rfl⟩

theorem leaves_onReader {made : Except Fault Reader}
    (opens : ∀ r', made = .ok r' → r'.Opens blocks ∧ r'.pending = r.pending)
    (applied : onReader w made = .ok (w', readers)) : Leaves r blocks readers := by
  obtain ⟨r', given, same⟩ := bind_ok applied
  cases same
  obtain ⟨opens, pending⟩ := opens r' given
  exact ⟨[], r', rfl, opens, pending⟩

theorem opens_openIf (opens : r.Opens blocks) {r' : Reader}
    (opened : openIf w r line name = .ok r') :
    r'.Opens (if r.replays.isEmpty then true :: blocks else blocks) ∧ r'.pending = r.pending := by
  unfold openIf at opened
  split at opened
  · obtain ⟨_, _, same⟩ := bind_ok opened
    cases same
    exact ⟨opens.push rfl, rfl⟩
  · cases opened
    exact ⟨opens.push rfl, rfl⟩

theorem opens_branch (opens : r.Opens blocks) (conditional : ¬ r.top.kind != .conditional)
    {f : Frame} (kind : f.kind = r.top.kind) (replaying : f.isReplaying = r.top.isReplaying) :
    Reader.Opens { r with top := f } blocks := by
  refine opens.set_top kind replaying ?_
  intro global file
  rw [file] at conditional
  exact absurd rfl conditional

theorem opens_elseIf (opens : r.Opens blocks) {r' : Reader}
    (opened : elseIf w r line name = .ok r') : r'.Opens blocks ∧ r'.pending = r.pending := by
  unfold elseIf at opened
  split at opened
  · cases opened
  · rename_i conditional
    split at opened
    · cases opened
      exact ⟨opens_branch opens conditional rfl rfl, rfl⟩
    · obtain ⟨_, _, same⟩ := bind_ok opened
      cases same
      exact ⟨opens_branch opens conditional rfl rfl, rfl⟩

theorem opens_otherwise (opens : r.Opens blocks) {r' : Reader} (opened : otherwise r = .ok r') :
    r'.Opens blocks ∧ r'.pending = r.pending := by
  unfold otherwise at opened
  split at opened
  · cases opened
  · rename_i conditional
    cases opened
    exact ⟨opens_branch opens conditional rfl rfl, rfl⟩

theorem opens_openRep (opens : r.Opens blocks) {r' : Reader} (opened : openRep w r line = .ok r') :
    r'.Opens (if r.replays.isEmpty then false :: blocks else blocks) ∧ r'.pending = r.pending := by
  unfold openRep at opened
  split at opened
  · obtain ⟨_, _, opened⟩ := bind_ok opened
    obtain ⟨_, _, same⟩ := bind_ok opened
    cases same
    exact ⟨opens.push rfl, rfl⟩
  · cases opened
    exact ⟨opens.push rfl, rfl⟩

theorem opens_openMacro (opens : r.Opens blocks) {r' : Reader}
    (opened : openMacro r line = .ok r') :
    r'.Opens (if r.replays.isEmpty then false :: blocks else blocks) ∧ r'.pending = r.pending := by
  unfold openMacro at opened
  split at opened
  · obtain ⟨_, _, same⟩ := bind_ok opened
    cases same
    exact ⟨opens.push rfl, rfl⟩
  · cases opened
    exact ⟨opens.push rfl, rfl⟩

theorem opens_close (opens : r.Opens blocks) {r' : Reader} (closed : close w r = .ok (w', r')) :
    r'.Opens (if r.replays.isEmpty then blocks.tail else blocks) ∧ r'.pending = r.pending := by
  unfold close at closed
  split at closed
  · cases closed
  · rename_i outer below stack
    split at closed
    · cases closed
      refine ⟨opens.replay_top (by simp [stack]), ?_⟩
      unfold Reader.replayTop
      dsimp only
      split <;> rfl
    · cases closed
      exact ⟨opens.pop stack, rfl⟩

theorem leaves_apply (opens : r.Opens blocks) (named : Token.directive? line.first = some name)
    (moves : r.moves blocks line.tokens = some blocks')
    (applied : apply o w r line name = .ok (w', readers)) : Leaves r blocks' readers := by
  have flow : BlockFlow.ofTokens? line.tokens = BlockFlow.ofName? name := by
    change Token.directive? (line.tokens.headD "") = some name at named
    rw [BlockFlow.ofTokens?, named, Option.bind_some]
  unfold apply at applied
  split at applied
  · cases Reader.moves_none flow moves
    obtain ⟨⟨_, hit⟩, _, applied⟩ := bind_ok applied
    cases hit with
    | none =>
      cases applied
      exact ⟨[], r, rfl, opens, rfl⟩
    | some hit =>
      cases applied
      exact ⟨[_], r, rfl, opens, rfl⟩
  iterate 5
    · cases Reader.moves_none flow moves
      exact leaves_onWork opens applied
  · cases Reader.moves_none flow moves
    cases applied
    exact ⟨[], r, rfl, opens, rfl⟩
  · cases applied
  iterate 3
    · rw [Reader.moves_opening flow moves]
      exact leaves_onReader (fun _ => opens_openIf opens) applied
  iterate 3
    · cases Reader.moves_continuing flow moves
      exact leaves_onReader (fun _ => opens_elseIf opens) applied
  · cases Reader.moves_continuing flow moves
    exact leaves_onReader (fun _ => opens_otherwise opens) applied
  · rw [Reader.moves_opening flow moves]
    exact leaves_onReader (fun _ => opens_openRep opens) applied
  · rw [Reader.moves_opening flow moves]
    exact leaves_onReader (fun _ => opens_openMacro opens) applied
  · rw [Reader.moves_closing flow moves]
    obtain ⟨⟨_, r'⟩, closed, same⟩ := bind_ok applied
    cases same
    obtain ⟨opens, pending⟩ := opens_close opens closed
    exact ⟨[], r', rfl, opens, pending⟩
  · cases Reader.moves_none flow moves
    exact leaves_onWork opens applied
  · have other : BlockFlow.ofName? name = none := by
      unfold BlockFlow.ofName?
      split
      iterate 10 contradiction
      rfl
    rw [other] at flow
    cases Reader.moves_none flow moves
    split at applied
    · exact leaves_onWork opens applied
    · cases applied

end

end Directive

namespace Frame

theorem blocks_of_shape {frames frames' : List Frame}
    (same : frames'.map shape = frames.map shape) : blocks frames' = blocks frames := by
  induction frames generalizing frames' with
  | nil =>
    rw [List.map_nil, List.map_eq_nil_iff] at same
    rw [same]
  | cons f rest ih =>
    obtain ⟨f', rest', rfl, here, later⟩ := List.map_eq_cons_iff.1 same
    obtain ⟨kind, replaying⟩ := alike_of_shape here
    have any : (f' :: rest').any isReplaying = (f :: rest).any isReplaying := by
      rw [any_isReplaying, any_isReplaying, levels_of_shape same]
    cases rest with
    | nil =>
      rw [List.map_nil, List.map_eq_nil_iff] at later
      rw [later]
      rfl
    | cons g rest =>
      cases rest' with
      | nil => cases later
      | cons g' rest' =>
        rw [blocks_cons f (by simp), blocks_cons f' (by simp), any, kind, ih later]

theorem getLast_captureAll (line : Line) {frames : List Frame} {global : String}
    (last : frames.getLast? = some (ofFile global)) :
    (captureAll line frames).getLast? = some (ofFile global) := by
  induction frames with
  | nil => cases last
  | cons f rest ih =>
    simp only [captureAll]
    split
    · exact last
    · cases rest with
      | nil =>
        rw [List.getLast?_singleton, Option.some.injEq] at last
        rw [last]
        rfl
      | cons g rest =>
        rw [List.getLast?_cons_cons] at last
        rw [List.getLast?_cons, ih last]
        rfl

end Frame

namespace Reader

section

variable {o : Options} {w w' : Work} {r r' : Reader} {line : Line} {blocks blocks' : List Bool}
  {readers : List Reader}

theorem Opens.capture (opens : r.Opens blocks) (line : Line) : (r.capture line).Opens blocks := by
  have same := Frame.shape_captureAll line r.frames
  refine ⟨?_, ?_, ?_⟩
  · obtain ⟨global, last⟩ := opens.base
    exact ⟨global, by rw [frames_capture, Frame.getLast_captureAll line last]⟩
  · exact opens.sourced.capture line
  · rw [frames_capture, Frame.blocks_of_shape same]
    exact opens.blocks

theorem opens_invoke (opens : r.Opens blocks) (invoked : invoke w r line = .ok (w', r')) :
    r'.Opens blocks ∧ r'.pending = r.pending := by
  obtain ⟨call, _, invoked⟩ := bind_ok invoked
  dsimp only at invoked
  split at invoked
  · cases invoked
  · obtain ⟨_, _, same⟩ := bind_ok invoked
    cases same
    exact ⟨opens.push_replay rfl _, rfl⟩

theorem opens_useLine (opens : r.Opens blocks) (used : useLine w r line = .ok (w', r')) :
    r'.Opens blocks ∧ r'.pending = r.pending := by
  unfold useLine at used
  split at used
  · exact opens_invoke opens used
  · split at used
    · obtain ⟨⟨_, global⟩, _, same⟩ := bind_ok used
      cases same
      refine ⟨opens.set_top rfl rfl ?_, rfl⟩
      intro before file
      rw [file]
      exact ⟨global, rfl⟩
    · split at used
      · cases used
      · obtain ⟨_, _, same⟩ := bind_ok used
        cases same
        exact ⟨opens, rfl⟩

theorem leaves_handle (opens : r.Opens blocks) (moves : r.moves blocks line.tokens = some blocks')
    (handled : r.handle o w line = .ok (w', readers)) : Directive.Leaves r blocks' readers := by
  unfold handle at handled
  split at handled
  · rename_i name named
    split at handled
    · exact Directive.leaves_apply opens named moves handled
    · rename_i skipped
      cases handled
      have flow : BlockFlow.ofTokens? line.tokens = none := by
        change Token.directive? (line.tokens.headD "") = some name at named
        rw [BlockFlow.ofTokens?, named, Option.bind_some, ← Option.isNone_iff_eq_none,
          ← Option.not_isSome, BlockFlow.isFlow_of_ofName]
        simp only [Bool.or_eq_true, not_or, Bool.not_eq_true] at skipped
        rw [skipped.2]
        rfl
      cases moves_none flow moves
      exact ⟨[], r, rfl, opens, rfl⟩
  · rename_i unnamed
    have flow : BlockFlow.ofTokens? line.tokens = none := by
      change Token.directive? (line.tokens.headD "") = none at unnamed
      rw [BlockFlow.ofTokens?, unnamed]
      rfl
    cases moves_none flow moves
    split at handled
    · obtain ⟨⟨_, r'⟩, used, same⟩ := bind_ok handled
      cases same
      obtain ⟨opens, pending⟩ := opens_useLine opens used
      exact ⟨[], r', rfl, opens, pending⟩
    · cases handled
      exact ⟨[], r, rfl, opens, rfl⟩

end

end Reader

namespace Preprocess

def Within (p : Preprocess) : Prop :=
  ∃ inner r blocks, p.readers = inner ++ [r] ∧ r.Opens blocks ∧
    BlockFlow.isBalanced blocks (r.pending.map Line.tokens) = true

def Ended (p : Preprocess) : Prop := ∃ r, p.readers = [r] ∧ r.replays = [] ∧ r.pending = []

section

variable {o : Options} {w : Work} {r : Reader} {outer : List Reader} {line : Line}
  {p next : Preprocess} {blocks blocks' : List Bool}

theorem flow_canonical (line : Line) :
    BlockFlow.ofTokens? (canonical line).tokens = BlockFlow.ofTokens? line.tokens := by
  unfold canonical
  split
  · rename_i first rest shown
    split
    · rename_i name named
      split
      · rename_i statement
        have here : BlockFlow.ofTokens? line.tokens = BlockFlow.ofName? name := by
          rw [BlockFlow.ofTokens?, shown, List.headD_cons, named, Option.bind_some]
        have known : name ∈ ["dw", "dp", "ascii", "fill", "align"] := by
          simpa [Directive.isStatement] using statement
        have apart : ∀ name ∈ ["dw", "dp", "ascii", "fill", "align"],
            BlockFlow.ofName? name = none ∧
            (Token.directive? ("." ++ Text.upper name)).bind BlockFlow.ofName? = none := by
          decide +kernel
        obtain ⟨none, none'⟩ := apart name known
        rw [here, none, BlockFlow.ofTokens?, List.headD_cons, none']
      · rfl
    · rfl
  · rfl

/-- The line that a reader makes of one that it reads. -/
def used (r : Reader) (line : Line) : Line :=
  if r.top.isActive then canonical { line with global := r.top.global }
  else { line with global := r.top.global }

def showing (r : Reader) (line : Line) : Reader :=
  { r.capture { line with global := r.top.global } with last := some (used r line) }

theorem readLine_eq (o : Options) (w : Work) (r : Reader) (outer : List Reader) (line : Line) :
    readLine o w r outer line =
      match (showing r line).handle o w (used r line) with
      | .ok (w, readers) => .more ⟨w, readers ++ outer⟩
      | .error fault => .failed w (Failure.locate (used r line) ⟨fault, none⟩) := rfl

theorem flow_used (r : Reader) (line : Line) :
    BlockFlow.ofTokens? (used r line).tokens = BlockFlow.ofTokens? line.tokens := by
  unfold used
  split
  · exact flow_canonical _
  · rfl

theorem leaves_readLine (opens : r.Opens blocks) (moves : r.moves blocks line.tokens = some blocks')
    (read : readLine o w r outer line = .more next) :
    ∃ readers, next.readers = readers ++ outer ∧ Directive.Leaves r blocks' readers := by
  rw [readLine_eq] at read
  split at read
  · rename_i w' readers handled
    cases read
    refine ⟨readers, rfl, ?_⟩
    have shown := opens.capture { line with global := r.top.global }
    obtain ⟨replays, pending⟩ := Reader.replays_capture { line with global := r.top.global } r
    have same : (showing r line).moves blocks (used r line).tokens = some blocks' := by
      rw [← moves]
      simp only [Reader.moves, BlockFlow.after, flow_used, showing, replays]
    obtain ⟨inner, r', last, opens', pending'⟩ := Reader.leaves_handle (r := showing r line)
      ⟨shown.base, shown.sourced, shown.blocks⟩ same handled
    exact ⟨inner, r', last, opens', pending'.trans pending⟩
  · cases read

theorem more_append (w : Work) (readers outer : List Reader) (next : Preprocess) :
    Outcome.more ⟨w, readers ++ outer⟩ = .more next ↔
      ∃ left, Outcome.more ⟨w, readers⟩ = .more ⟨next.work, left⟩ ∧
        next.readers = left ++ outer := by
  constructor
  · intro same
    cases same
    exact ⟨readers, rfl, rfl⟩
  · rintro ⟨left, same, shown⟩
    cases same
    rw [← shown]

theorem more_cons : step o ⟨w, r :: outer⟩ = .more next ↔
    ∃ readers, step o ⟨w, [r]⟩ = .more ⟨next.work, readers⟩ ∧ next.readers = readers ++ outer := by
  have read (r : Reader) (line : Line) : readLine o w r outer line = .more next ↔
      ∃ readers, readLine o w r [] line = .more ⟨next.work, readers⟩ ∧
        next.readers = readers ++ outer := by
    rw [readLine_eq, readLine_eq]
    cases (showing r line).handle o w (used r line) with
    | error fault => simp
    | ok result =>
      simp only [List.append_nil]
      exact more_append _ _ _ _
  have ends : endFile w r outer = .more next ↔
      ∃ readers, endFile w r [] = .more ⟨next.work, readers⟩ ∧
        next.readers = readers ++ outer := by
    unfold endFile
    split
    · simp
    · split
      · exact more_append w [] outer next
      · simp
  unfold step
  dsimp only
  split
  · split
    · exact read _ _
    · simp
  · split
    · exact read _ _
    · exact ends

theorem within_step (within : p.Within) (unended : ¬ p.Ended) (first : step o p = .more next) :
    next.Within := by
  obtain ⟨work, _⟩ := p
  obtain ⟨inner, r, blocks, rfl, opens, balanced⟩ := within
  cases inner with
  | nil =>
    obtain ⟨file, pending, fault, top, below, replays, last⟩ := r
    simp only [List.nil_append, step] at first
    cases replays with
    | cons replay replays =>
      obtain ⟨level, body, rest⟩ := replay
      cases rest with
      | nil => cases first
      | cons line rest =>
        have opens' : Reader.Opens
            ⟨file, pending, fault, top, below, ⟨level, body, rest⟩ :: replays, last⟩ blocks :=
          ⟨opens.base, opens.sourced, opens.blocks⟩
        obtain ⟨_, shown, inner, r', rfl, opens', left⟩ := leaves_readLine opens' rfl first
        refine ⟨inner, r', blocks, by rw [shown, List.append_nil], opens', ?_⟩
        rw [left]
        exact balanced
    | nil =>
      cases pending with
      | nil => exact absurd ⟨_, rfl, rfl, rfl⟩ unended
      | cons line pending =>
        rw [List.map_cons, BlockFlow.isBalanced, Option.any_eq_true] at balanced
        obtain ⟨blocks', after, balanced⟩ := balanced
        have opens' : Reader.Opens ⟨file, pending, fault, top, below, [], last⟩ blocks :=
          ⟨opens.base, opens.sourced, opens.blocks⟩
        obtain ⟨_, shown, inner, r', rfl, opens', left⟩ := leaves_readLine opens' after first
        refine ⟨inner, r', blocks', by rw [shown, List.append_nil], opens', ?_⟩
        rw [left]
        exact balanced
  | cons i inner =>
    rw [List.cons_append, more_cons] at first
    obtain ⟨inner', -, shown⟩ := first
    exact ⟨inner' ++ inner, r, blocks, by rw [shown, List.append_assoc], opens, balanced⟩

end

end Preprocess

end WordAsm
