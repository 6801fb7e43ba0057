import WordAsm.Proofs.HeldLines
import WordAsm.Proofs.LabelKeys
import WordAsm.Program

/-!
Macro hygiene. A macro counts its invocations from when it was defined, and an invocation stands in
a scope that spells the macro and this number. So two invocations have scopes of their own unless
the macro has been defined again between them, and labels of one are not seen from another that is
not within it.
-/
namespace WordAsm

namespace Invocation

/-- What the invocation adds to the scope of the line that invokes it. -/
def fragment (i : Invocation) : String := i.key ++ "_" ++ toString i.count

/-- The scope of the lines that stand for the invocation. -/
def scope (i : Invocation) : Scope := i.outer.enter i.fragment

theorem isDigit_toString {n : Nat} {c : Char} (member : c ∈ (toString n).toList) :
    c.isDigit = true := by
  rw [Nat.toString_eq_ofList_toDigits, String.toList_ofList] at member
  obtain ⟨d, bound, rfl⟩ := Text.mem_toDigits (by decide : 1 < 10) member
  have digits : ∀ d < 10, d.digitChar.isDigit = true := by decide
  exact digits d bound

theorem fragment_inj {i j : Invocation} (same : i.fragment = j.fragment) :
    i.key = j.key ∧ i.count = j.count := by
  have back : ∀ k : Invocation, k.fragment.toList.reverse.takeWhile (· != '_') =
      (toString k.count).toList.reverse := by
    intro k
    have chars : k.fragment.toList.reverse =
        (toString k.count).toList.reverse ++ '_' :: k.key.toList.reverse := by
      simp [fragment]
    rw [chars, List.takeWhile_append_of_pos]
    · simp
    · intro c member
      rw [bne_iff_ne]
      rintro rfl
      have digit := isDigit_toString (List.mem_reverse.1 member)
      revert digit
      decide
  have figures : toString i.count = toString j.count := by
    rw [← String.toList_inj, ← List.reverse_inj, ← back, ← back, same]
  have count : i.count = j.count := by
    have read := Literal.digits_toString i.count
    rw [figures, Literal.digits_toString] at read
    exact (Option.some.inj read).symm
  rw [fragment, fragment, figures, String.append_left_inj, String.append_left_inj] at same
  exact ⟨same, count⟩

theorem plain_fragment {i : Invocation} (plain : ':' ∉ i.key.toList) : ':' ∉ i.fragment.toList := by
  have figures : ':' ∉ (toString i.count).toList := by
    intro member
    have digit := isDigit_toString member
    revert digit
    decide
  rw [fragment, String.toList_append, String.toList_append, List.mem_append, List.mem_append]
  rintro ((named | underscore) | digit)
  · exact plain named
  · simp at underscore
  · exact figures digit

theorem upper_fragment {i : Invocation} (upper : Text.upper i.key = i.key) :
    Text.upper i.fragment = i.fragment := by
  have underscore : Text.upper "_" = "_" := by decide +kernel
  rw [fragment, Text.upper_append, Text.upper_append, Text.upper_toString, upper, underscore]

theorem scope_inj {i j : Invocation} (same : i.scope = j.scope) : i = j := by
  obtain ⟨outer, fragments⟩ := List.append_inj' same rfl
  obtain ⟨key, count⟩ := fragment_inj (List.cons.inj fragments).1
  cases i
  cases j
  simp_all

end Invocation

def Work.Keyed (w : Work) : Prop := ∀ (k : String) m, w.macros[k]? = some m → Text.upper m.name = k

/-- How often a macro has been invoked since it was defined. -/
def Work.count (w : Work) (key : String) : Nat := (w.macros[key]?).elim 0 Macro.count

def MacroEvent.tally (key : String) (n : Nat) : MacroEvent → Nat
  | .defined k => if k = key then 0 else n
  | .invoked i => if i.key = key then n + 1 else n

namespace Reader

section

variable {o : Options} {w w' : Work} {r : Reader} {line : Line} {event : Option MacroEvent}
  {readers : List Reader} {i : Invocation}

theorem Effect.keyed (effect : Effect o w r line event w' readers) (keyed : w.Keyed) :
    w'.Keyed := by
  intro k m known
  rcases effect.macros with ⟨_, same⟩ | ⟨d, _, _, _, same⟩ | ⟨i, d, _, _, before, same⟩
  · rw [same] at known
    exact keyed k m known
  · rw [same, Std.TreeMap.getElem?_insert] at known
    split at known
    · rename_i here
      cases known
      exact Std.LawfulEqCmp.compare_eq_iff_eq.1 here
    · exact keyed k m known
  · rw [same, Std.TreeMap.getElem?_insert] at known
    split at known
    · rename_i here
      cases known
      rw [← Std.LawfulEqCmp.compare_eq_iff_eq.1 here]
      exact keyed i.key d before
    · exact keyed k m known

theorem Effect.count (effect : Effect o w r line event w' readers) (key : String) :
    w'.count key = event.toList.foldl (MacroEvent.tally key) (w.count key) := by
  have put : ∀ (k : String) (m : Macro), w'.macros = w.macros.insert k m →
      w'.count key = if k = key then m.count else w.count key := by
    intro k m same
    unfold Work.count
    rw [same, Std.TreeMap.getElem?_insert]
    simp only [Std.LawfulEqCmp.compare_eq_iff_eq]
    split <;> rfl
  rcases effect.macros with ⟨none, same⟩ | ⟨m, some, zero, _, same⟩ | ⟨i, m, some, _, before, same⟩
  · rw [none, Work.count, same]
    rfl
  · rw [some, put _ _ same, zero]
    rfl
  · rw [some, put _ _ same]
    change _ = if i.key = key then _ else _
    by_cases here : i.key = key
    · rw [if_pos here, if_pos here, ← here, Work.count, before]
      rfl
    · rw [if_neg here, if_neg here]

theorem Effect.count_next (effect : Effect o w r line (some (.invoked i)) w' readers) :
    i.count = w.count i.key + 1 := by
  obtain ⟨m, _, known, count, _⟩ := effect.invoked
  rw [count, Work.count, known]
  rfl

end

end Reader

namespace Preprocess

def history (o : Options) : Nat → Preprocess → List MacroEvent
  | 0, _ => []
  | n + 1, p =>
    match step o p with
    | .more next => p.event?.toList ++ history o n next
    | .done _ | .failed _ _ => []

section

variable {o : Options} {p next : Preprocess} {n : Nat} {e : MacroEvent} {i j : Invocation}
  {before between after rest : List MacroEvent}

theorem Moves.keyed (moves : Moves o p next) (keyed : p.work.Keyed) : next.work.Keyed := by
  cases moves with
  | ended _ _ _ _ _ work _ =>
    rw [work]
    exact keyed
  | read _ _ effect _ _ => exact effect.keyed keyed

theorem Moves.count (moves : Moves o p next) (key : String) :
    next.work.count key = p.event?.toList.foldl (MacroEvent.tally key) (p.work.count key) := by
  cases moves with
  | ended _ quiet _ _ _ work _ =>
    rw [work, quiet]
    rfl
  | read _ _ effect _ _ => exact effect.count key

theorem Moves.count_next (moves : Moves o p next) (event : p.event? = some (.invoked i)) :
    i.count = p.work.count i.key + 1 := by
  cases moves with
  | ended _ quiet _ _ _ _ _ =>
    rw [quiet] at event
    cases event
  | read _ _ effect _ _ =>
    rw [event] at effect
    exact effect.count_next

theorem exists_step (split : history o n p = before ++ e :: rest) :
    ∃ q next m, Reaches o p q ∧ step o q = .more next ∧ q.event? = some e ∧
      rest = history o m next := by
  induction n generalizing p before with
  | zero => simp [history] at split
  | succ n ih =>
    rw [history] at split
    split at split
    · rename_i next first
      cases event : p.event? with
      | none =>
        rw [event] at split
        obtain ⟨q, last, m, reached, later⟩ := ih split
        exact ⟨q, last, m, .head first reached, later⟩
      | some e' =>
        rw [event] at split
        cases before with
        | nil =>
          obtain ⟨rfl, rfl⟩ := List.cons.inj split
          exact ⟨p, next, n, .refl, first, event, rfl⟩
        | cons e'' before =>
          obtain ⟨q, last, m, reached, later⟩ := ih (List.cons.inj split).2
          exact ⟨q, last, m, .head first reached, later⟩
    · simp at split
    · simp at split

theorem count_lt (split : history o n p = between ++ .invoked j :: after)
    (kept : .defined j.key ∉ between) : p.work.count j.key < j.count := by
  induction n generalizing p between with
  | zero => simp [history] at split
  | succ n ih =>
    rw [history] at split
    split at split
    · rename_i next first
      have moves := moves_step first
      have counted := moves.count j.key
      cases event : p.event? with
      | none =>
        rw [event] at split counted
        have later := ih split kept
        rwa [counted] at later
      | some e =>
        rw [event] at split counted
        cases between with
        | nil =>
          obtain ⟨rfl, _⟩ := List.cons.inj split
          have number := moves.count_next event
          omega
        | cons e' between =>
          obtain ⟨same, split⟩ := List.cons.inj split
          have later := ih split fun again => kept (List.mem_cons_of_mem e' again)
          have grows : p.work.count j.key ≤ next.work.count j.key := by
            rw [counted]
            change _ ≤ MacroEvent.tally j.key (p.work.count j.key) e
            cases e with
            | defined k =>
              have other : k ≠ j.key := by
                rintro rfl
                exact kept (by simp [← same])
              simp [MacroEvent.tally, other]
            | invoked i =>
              simp only [MacroEvent.tally]
              split <;> omega
          omega
    · simp at split
    · simp at split

end

end Preprocess

theorem Macro.scope_expansion {m : Macro} {i : Invocation} (arguments : List String)
    (key : Text.upper m.name = i.key) (count : i.count = m.count + 1) :
    ∀ line ∈ m.expansion arguments i.outer, line.scope = i.scope := by
  intro line member
  obtain ⟨_, _, rfl⟩ := List.mem_map.1 member
  rw [Invocation.scope, Invocation.fragment, ← key, count]
  rfl

theorem Line.kept_scope (kind : Scope → Prop) : Kept fun line => kind line.scope := by
  refine ⟨fun _ _ given => given, ?_⟩
  intro line given
  have same : (Preprocess.canonical line).scope = line.scope := by
    unfold Preprocess.canonical
    repeat' split
    all_goals rfl
  rw [same]
  exact given

namespace Preprocess

def Expands (next : Preprocess) (i : Invocation) : Prop :=
  ∃ r waiting body, next.readers = r :: waiting ∧
    r.replays.head? = some ⟨r.below.length, body, body⟩ ∧ ∀ line ∈ body, line.scope = i.scope

section

variable {o : Options} {file source : String} {p next : Preprocess} {n : Nat} {i j : Invocation}
  {kind : Scope → Prop} {before between after : List MacroEvent}

theorem Moves.expands (moves : Moves o p next) (keyed : p.work.Keyed)
    (event : p.event? = some (.invoked i)) : next.Expands i ∧ Text.upper i.key = i.key := by
  cases moves with
  | ended _ quiet _ _ _ _ _ =>
    rw [quiet] at event
    cases event
  | @read r taken line waiting readers _ _ effect _ left =>
    rw [event] at effect
    obtain ⟨m, arguments, known, count, outer, rfl⟩ := effect.invoked
    have key := keyed i.key m known
    have scopes := Macro.scope_expansion arguments key count
    rw [outer] at scopes
    refine ⟨⟨_, waiting, _, left, rfl, scopes⟩, ?_⟩
    rw [← key, Text.upper_upper]

theorem Moves.scopes (moves : Moves o p next) (keyed : p.work.Keyed)
    (aligned : ∀ r ∈ p.readers, r.Aligned) (outermost : kind [])
    (entered : ∀ i, p.event? = some (.invoked i) → kind i.outer → kind i.scope)
    (scopes : ∀ r ∈ p.readers, r.Holds fun line => kind line.scope) :
    (∀ r ∈ next.readers, r.Holds fun line => kind line.scope) ∧
      ∀ i, p.event? = some (.invoked i) → kind i.outer := by
  have kept := Line.kept_scope kind
  constructor
  · refine moves.holds kept aligned ?_ ?_ scopes
    · intro path bytes _ l member
      rw [(Tokenizer.written_tokenize _ _ l member).2]
      exact outermost
    · intro call m line given known event l member
      rw [Macro.scope_expansion (i := ⟨Text.upper call.name, m.count + 1, line.scope⟩)
        call.arguments (keyed _ m known) rfl l member]
      exact entered _ event given
  · intro i event
    obtain ⟨line, given, same⟩ := moves.invoking kept aligned scopes event
    rw [same]
    exact given

theorem keyed_reached (reached : Reaches o (start file source) p) : p.work.Keyed := by
  induction reached with
  | refl =>
    intro k m known
    simp [start] at known
  | tail _ first ih => exact (moves_step first).keyed ih

theorem scopes_history (outermost : kind []) (reached : Reaches o (start file source) p)
    (scopes : ∀ r ∈ p.readers, r.Holds fun line => kind line.scope)
    (entered : ∀ i, .invoked i ∈ history o n p → Text.upper i.key = i.key → kind i.outer →
      kind i.scope) :
    ∀ i, .invoked i ∈ history o n p → kind i.scope := by
  induction n generalizing p with
  | zero => simp [history]
  | succ n ih =>
    have keyed := keyed_reached reached
    unfold history at entered ⊢
    cases first : step o p with
    | more next =>
      simp only [first, List.mem_append, Option.mem_toList] at entered ⊢
      have moves := moves_step first
      have here : ∀ i, p.event? = some (.invoked i) → kind i.outer → kind i.scope :=
        fun i event outer => entered i (.inl event) (moves.expands keyed event).2 outer
      obtain ⟨later, outer⟩ :=
        moves.scopes keyed (aligned_reached reached) outermost here scopes
      intro i member
      cases member with
      | inl event => exact here i event (outer i event)
      | inr rest =>
        exact ih (reached.tail first) later (fun i member => entered i (.inr member)) i rest
    | done w => simp
    | failed w failure => simp

theorem plain_history
    (plain : ∀ i, .invoked i ∈ history o n (start file source) → ':' ∉ i.key.toList) :
    ∀ i, .invoked i ∈ history o n (start file source) → i.scope.Plain := by
  have outermost : Scope.Plain [] := by simp [Scope.Plain]
  refine scopes_history outermost .refl ?_ ?_
  · intro r member
    rw [List.mem_singleton.1 member]
    apply Reader.holds_ofSource
    intro line inside
    rw [(Tokenizer.written_tokenize file source line inside).2]
    exact outermost
  · intro i member upper outer f inside
    cases List.mem_append.1 inside with
    | inl earlier => exact outer f earlier
    | inr last =>
      rw [List.mem_singleton.1 last]
      exact ⟨Invocation.plain_fragment (plain i member), Invocation.upper_fragment upper⟩

/-- Two invocations have the same scope only if their macro is defined again between them.
Otherwise no label of one has the key of a label of the other, and labels of one are found from the
other only if this is within it, where no namespace of local labels is spelled like an
invocation. -/
theorem invocations_are_hygienic
    (performed : history o n (start file source) =
      before ++ .invoked i :: (between ++ .invoked j :: after)) :
    (∀ k ∈ [i, j], ∃ p next, Reaches o (start file source) p ∧ step o p = .more next ∧
      p.event? = some (.invoked k) ∧ next.Expands k) ∧
    (i.scope = j.scope → i = j ∧ .defined j.key ∈ between) ∧
    (i.scope ≠ j.scope →
      (∀ k, .invoked k ∈ history o n (start file source) → ':' ∉ k.key.toList) →
      ∀ a b : PlainLabel, ¬ a.IsUnder j.fragment → ¬ b.IsUnder i.fragment →
        a.key i.scope ≠ b.key j.scope ∧ ∀ (symbols : Symbols) (label : Label),
          (¬ i.scope <+: j.scope →
            symbols.find? b.name b.global j.scope ≠ some (a.key i.scope, label)) ∧
          (¬ j.scope <+: i.scope →
            symbols.find? a.name a.global i.scope ≠ some (b.key j.scope, label))) := by
  refine ⟨?_, ?_, ?_⟩
  · intro k member
    have split : ∃ before after,
        history o n (start file source) = before ++ .invoked k :: after := by
      cases List.mem_cons.1 member with
      | inl here => exact ⟨before, _, here ▸ performed⟩
      | inr later =>
        rw [List.mem_singleton.1 later]
        exact ⟨before ++ .invoked i :: between, after, by simp [performed]⟩
    obtain ⟨_, _, split⟩ := split
    obtain ⟨p, next, _, reached, first, event, _⟩ := exists_step split
    exact ⟨p, next, reached, first, event,
      ((moves_step first).expands (keyed_reached reached) event).1⟩
  · intro same
    have equal := Invocation.scope_inj same
    refine ⟨equal, ?_⟩
    by_contra kept
    obtain ⟨p, next, m, _, first, event, rest⟩ := exists_step performed
    have moves := moves_step first
    have larger := count_lt rest.symm kept
    have counted := moves.count j.key
    have number := moves.count_next event
    rw [event, equal] at counted
    rw [equal] at number
    simp [MacroEvent.tally] at counted
    omega
  · intro distinct plain a b apart apart'
    have scopes := plain_history plain
    have plainI := scopes i (by simp [performed])
    have plainJ := scopes j (by simp [performed])
    refine ⟨PlainLabel.key_ne plainI plainJ distinct apart apart', ?_⟩
    intro symbols label
    constructor
    · intro outside
      exact PlainLabel.not_found plainI plainJ outside apart' symbols label
    · intro outside
      exact PlainLabel.not_found plainJ plainI outside apart symbols label

end

def nested : String :=
  ".macro in()\n:loop\n.end\n.macro out()\nin()\nin()\n.end\n.rep 2\nout()\n.end\n"

-- The loop of every invocation is its own.
theorem invocations_are_hygienic_nested :
    let i : Invocation := ⟨"IN", 1, ["OUT_1"]⟩
    let j : Invocation := ⟨"IN", 3, ["OUT_2"]⟩
    let loop : PlainLabel := ⟨"loop", none, by decide, by simp⟩
    history {} 21 (start "nested" nested) =
      [.defined "IN", .defined "OUT", .invoked ⟨"OUT", 1, []⟩, .invoked i,
        .invoked ⟨"IN", 2, ["OUT_1"]⟩, .invoked ⟨"OUT", 2, []⟩, .invoked j] ∧
    i.scope ≠ j.scope ∧ loop.key i.scope ≠ loop.key j.scope ∧
    ∀ (symbols : Symbols) (label : Label),
      symbols.find? "loop" "" j.scope ≠ some (loop.key i.scope, label) := by
  intro i j loop
  have computed : history {} 21 (start "nested" nested) =
      [.defined "IN", .defined "OUT", .invoked ⟨"OUT", 1, []⟩] ++ .invoked i ::
        ([.invoked ⟨"IN", 2, ["OUT_1"]⟩, .invoked ⟨"OUT", 2, []⟩] ++ [.invoked j]) := by
    decide +kernel
  obtain ⟨_, _, hygienic⟩ := invocations_are_hygienic computed
  have distinct : i.scope ≠ j.scope := by decide
  have outside : ¬ i.scope <+: j.scope := by decide
  have plain : ∀ k, .invoked k ∈ history {} 21 (start "nested" nested) → ':' ∉ k.key.toList := by
    intro k member
    rw [computed] at member
    simp only [List.mem_append, List.mem_cons, MacroEvent.invoked.injEq, reduceCtorEq, false_or,
      List.not_mem_nil, or_false] at member
    rcases member with rfl | rfl | (rfl | rfl) | rfl <;> decide
  have apart : ∀ fragment, ¬ loop.IsUnder fragment := by simp [PlainLabel.IsUnder, loop]
  obtain ⟨keys, found⟩ := hygienic distinct plain loop loop (apart _) (apart _)
  exact ⟨computed, distinct, keys, fun symbols label => (found symbols label).1 outside⟩

def redefined : String := ".macro m()\n:here\n.end\nm()\n.macro m()\n:here\n.end\nm()\n"

def imitating : String :=
  ".macro m()\n:_a\nDAT 7\n.end\n.macro n()\n:m_1\nSET PC, _a\n.end\nm()\nn()\n"

-- A macro that is defined again counts from one again, so that labels of its invocations meet. And
-- after a label that is spelled like an invocation, a local label of this is found from another
-- one: the jump goes back to where the other macro begins.
theorem invocations_share_labels :
    history {} 11 (start "main" redefined) =
      [.defined "M", .invoked ⟨"M", 1, []⟩, .defined "M", .invoked ⟨"M", 1, []⟩] ∧
    (preprocess {} "main" redefined).2.map Failure.fault =
      some (.redefined (.labelOverLabel "here")) ∧
    (assemble {} "main" imitating).outcome.toOption.map Program.words = some [7, 0x81C1] := by
  refine ⟨?_, ?_, ?_⟩ <;> decide +kernel

end Preprocess

end WordAsm
