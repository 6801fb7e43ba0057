import WordAsm.Proofs.WholeLines

/-!
What the tokenizer does with one lexeme. Where a text leads, into a comment, into a string or out of
both, is seen from its characters. Line breaks are counted in all three, and the lines that a step
adds are those that its lexeme ends.
-/
namespace WordAsm.Tokenizer

inductive IsLexeme : List Char → Prop
  | delimiter (d : Char) (delimits : isDelimiter d = true) : IsLexeme [d]
  | run {cs : List Char} (filled : cs ≠ []) (whole : ∀ c ∈ cs, isDelimiter c = false) : IsLexeme cs

theorem IsLexeme.ne_nil {lexeme : List Char} (given : IsLexeme lexeme) : lexeme ≠ [] := by
  cases given with
  | delimiter d delimits => simp
  | run filled whole => exact filled

theorem isLexeme_of_mem (cs : List Char) : ∀ lexeme ∈ lexemes cs, IsLexeme lexeme := by
  induction cs with
  | nil =>
    intro lexeme member
    cases member
  | cons c cs ih =>
    have alone : IsLexeme [c] := by
      by_cases delimits : isDelimiter c = true
      · exact .delimiter c delimits
      · refine .run (by simp) ?_
        intro d member
        rw [List.mem_singleton.1 member]
        exact Bool.not_eq_true _ ▸ delimits
    change ∀ lexeme ∈ attach c (lexemes cs), IsLexeme lexeme
    unfold attach
    split
    · rename_i d ds rest shown
      rw [shown] at ih
      split
      · intro lexeme member
        rcases List.mem_cons.1 member with rfl | member
        · exact alone
        · exact ih lexeme member
      · rename_i joined
        simp only [Bool.or_eq_true, not_or, Bool.not_eq_true] at joined
        obtain ⟨solid, solid'⟩ := joined
        intro lexeme member
        rcases List.mem_cons.1 member with rfl | member
        · refine .run (by simp) ?_
          intro e inside
          rcases List.mem_cons.1 inside with rfl | inside
          · exact solid
          · cases ih (d :: ds) List.mem_cons_self with
            | delimiter d delimits =>
              rw [solid'] at delimits
              cases delimits
            | run filled whole => exact whole e inside
        · exact ih lexeme (List.mem_cons_of_mem _ member)
    · intro lexeme member
      rcases List.mem_cons.1 member with rfl | member
      · exact alone
      · exact ih lexeme member

theorem flatten_lexemes (cs : List Char) : (lexemes cs).flatten = cs := by
  induction cs with
  | nil => rfl
  | cons c cs ih =>
    have front (rest : List (List Char)) : (attach c rest).flatten = c :: rest.flatten := by
      unfold attach
      split
      · split <;> rfl
      · rfl
    exact (front _).trans (congrArg (c :: ·) ih)

namespace Mode

/-- What a character leads to. -/
def next : Mode → Char → Mode
  | plain, c => if c == ';' then comment else if c == '"' then quoted false else plain
  | comment, c => if c == '\n' then plain else comment
  | quoted true, _ => quoted false
  | quoted false, c =>
    if c == '\\' then quoted true else if c == '"' then plain else quoted false

/-- Where a text leads that begins outside of comments and strings. -/
def after (cs : List Char) : Mode := cs.foldl next plain

def isQuoted : Mode → Bool
  | quoted _ => true
  | _ => false

/-- Whether a character ends a line: line breaks do, and braces outside of comments. -/
def endsLine : Mode → Char → Bool
  | plain, c => c == '\n' || c == '\x7b' || c == '\x7d'
  | comment, c => c == '\n'
  | quoted _, _ => false

theorem next_run {cs : List Char} (filled : cs ≠ []) (whole : ∀ c ∈ cs, isDelimiter c = false)
    (m : Mode) : cs.foldl next m = if m.isQuoted then quoted false else m := by
  have other {c d : Char} (solid : isDelimiter c = false) (delimits : isDelimiter d = true) :
      (c == d) = false := by
    rw [beq_eq_false_iff_ne]
    rintro rfl
    rw [delimits] at solid
    cases solid
  have one (c : Char) (solid : isDelimiter c = false) (m : Mode) :
      m.next c = if m.isQuoted then quoted false else m := by
    cases m with
    | plain => simp [next, isQuoted, other (d := ';') solid rfl, other (d := '"') solid rfl]
    | comment => simp [next, isQuoted, other (d := '\n') solid rfl]
    | quoted escaped =>
      cases escaped with
      | true => rfl
      | false => simp [next, isQuoted, other (d := '\\') solid rfl, other (d := '"') solid rfl]
  induction cs generalizing m with
  | nil => exact absurd rfl filled
  | cons c cs ih =>
    have here := one c (whole c List.mem_cons_self) m
    rw [List.foldl_cons, here]
    cases cs with
    | nil => rfl
    | cons d ds =>
      rw [ih (by simp) fun e member => whole e (List.mem_cons_of_mem c member)]
      cases m <;> rfl

end Mode

theorem IsLexeme.count_break {lexeme : List Char} (given : IsLexeme lexeme) :
    lexeme.count '\n' = if lexeme == ['\n'] then 1 else 0 := by
  cases given with
  | delimiter d delimits => simp [List.count_singleton]
  | run filled whole =>
    rw [beq_delimiter whole rfl, List.count_eq_zero_of_not_mem]
    · rfl
    · intro member
      cases whole '\n' member

def Mode.isEnding (m : Mode) : List Char → Bool
  | [d] => m.endsLine d
  | _ => false

theorem Mode.isEnding_plain (lexeme : List Char) : plain.isEnding lexeme =
    (lexeme == ['\n'] || lexeme == ['\x7b'] || lexeme == ['\x7d']) := by
  rcases lexeme with _ | ⟨d, _ | ⟨e, rest⟩⟩
  · rfl
  · simp [isEnding, endsLine]
  · simp [isEnding]

theorem Mode.isEnding_comment (lexeme : List Char) :
    comment.isEnding lexeme = (lexeme == ['\n']) := by
  rcases lexeme with _ | ⟨d, _ | ⟨e, rest⟩⟩
  · rfl
  · simp [isEnding, endsLine]
  · simp [isEnding]

theorem Mode.isEnding_quoted (escaped : Bool) (lexeme : List Char) :
    (quoted escaped).isEnding lexeme = false := by
  rcases lexeme with _ | ⟨d, _ | ⟨e, rest⟩⟩ <;> rfl

/-- What a lexeme ends where `gathered` is the line so far: the line if there is any, and a block if
it is a brace, or a label that is a line of its own. Blocks have no tokens. -/
def ended (m : Mode) (gathered : List String) (lexeme : List Char) : List (Option (List String)) :=
  if m.isEnding lexeme then
    (if gathered.isEmpty then [] else [some gathered]) ++
      if lexeme == ['\x7d'] then [none] else []
  else if m == .plain && Token.isLabelChars lexeme && gathered.isEmpty then
    [some [String.ofList lexeme]]
  else []

def Piece.ofTokens (n : Nat) : Option (List String) → Piece
  | some tokens => .line tokens n
  | none => .close n

/-- A line break or a brace ends the line before it, a closing brace a block too, and a label is a
line by itself. -/
inductive Ends (m : Mode) : List Char → Option (List String) → Prop
  | line {lexeme : List Char} (ending : m.isEnding lexeme = true) (tokens : List String) :
    Ends m lexeme (some tokens)
  | block (outside : m = .plain) : Ends m ['\x7d'] none
  | label {lexeme : List Char} (outside : m = .plain)
    (labels : Token.isLabelChars lexeme = true) : Ends m lexeme (some [String.ofList lexeme])

theorem ends_of_ended {m : Mode} {gathered : List String} {lexeme : List Char}
    {tokens : Option (List String)} (member : tokens ∈ ended m gathered lexeme) :
    Ends m lexeme tokens := by
  unfold ended at member
  split at member
  · rename_i ending
    rcases List.mem_append.1 member with inside | inside
    · split at inside
      · cases inside
      · rw [List.mem_singleton.1 inside]
        exact .line ending gathered
    · split at inside
      · rename_i closing
        obtain rfl := beq_iff_eq.1 closing
        rw [List.mem_singleton.1 inside]
        refine .block ?_
        cases m with
        | plain => rfl
        | comment => cases ending
        | quoted escaped => cases ending
      · cases inside
  split at member
  · rename_i labels
    simp only [Bool.and_eq_true, beq_iff_eq] at labels
    rw [List.mem_singleton.1 member]
    exact .label labels.1.1 labels.1.2
  · cases member

namespace Scan

section

variable {s : Scan} {file : String} {lexeme : List Char}

theorem mode_flush (s : Scan) : s.flush.mode = s.mode := by
  unfold flush
  split <;> rfl

theorem mode_endLine (s : Scan) (n : Nat) : (s.endLine n).mode = .plain := by
  unfold endLine
  dsimp only
  split <;> rfl

theorem mode_label (s : Scan) (file : String) (n : Nat) (lexeme : List Char) :
    (s.label file n lexeme).mode = s.mode := by
  unfold label
  dsimp only
  split <;> exact s.mode_flush

theorem sound_of_step (sound : (s.step file lexeme).fault = none) : s.fault = none := by
  cases fault : s.fault with
  | none => rfl
  | some f =>
    rw [step, if_pos (by simp [fault]), fault] at sound
    cases sound

theorem sound_of_steps {lexemes : List (List Char)}
    (sound : (lexemes.foldl (step file) s).fault = none) : s.fault = none := by
  cases fault : s.fault with
  | none => rfl
  | some f =>
    rw [foldl_step_faulty (by simp [fault]), fault] at sound
    cases sound

theorem step_counted (sound : s.fault = none) (file : String) (lexeme : List Char) :
    ∃ t : Scan, t = { s with number := s.number + if lexeme == ['\n'] then 1 else 0 } ∧
      ((s.mode = .plain ∧ s.step file lexeme = t.plain file s.number lexeme) ∨
        (s.mode = .comment ∧ lexeme = ['\n'] ∧ s.step file lexeme = t.endLine s.number) ∨
        (s.mode = .comment ∧ lexeme ≠ ['\n'] ∧ s.step file lexeme = t) ∨
        ∃ escaped, s.mode = .quoted escaped ∧
          s.step file lexeme = t.quoted escaped lexeme) := by
  refine ⟨_, rfl, ?_⟩
  by_cases broken : lexeme = ['\n']
  · simp only [step, sound, broken, Option.isSome_none, beq_self_eq_true, Bool.false_eq_true,
      if_false, if_true]
    cases mode : s.mode with
    | plain => exact .inl ⟨rfl, rfl⟩
    | comment => exact .inr (.inl ⟨rfl, trivial, rfl⟩)
    | quoted escaped => exact .inr (.inr (.inr ⟨escaped, rfl, rfl⟩))
  · have other : (lexeme == ['\n']) = false := by simpa using broken
    have same : { s with number := s.number + if lexeme == ['\n'] then 1 else 0 } = s := by
      simp only [other, Bool.false_eq_true, if_false, Nat.add_zero]
    rw [same]
    simp only [step, sound, other, Option.isSome_none, Bool.false_eq_true, if_false]
    cases mode : s.mode with
    | plain => exact .inl ⟨rfl, rfl⟩
    | comment => exact .inr (.inr (.inl ⟨rfl, broken, rfl⟩))
    | quoted escaped => exact .inr (.inr (.inr ⟨escaped, rfl, rfl⟩))

theorem step_cases (sound : s.fault = none) (file : String) (lexeme : List Char) :
    ∃ (t : Scan) (m : Nat), t = { s with number := m } ∧
      ((s.mode = .plain ∧ s.step file lexeme = t.plain file s.number lexeme) ∨
        (s.mode = .comment ∧ lexeme = ['\n'] ∧ s.step file lexeme = t.endLine s.number) ∨
        (s.mode = .comment ∧ lexeme ≠ ['\n'] ∧ s.step file lexeme = t) ∨
        ∃ escaped, s.mode = .quoted escaped ∧
          s.step file lexeme = t.quoted escaped lexeme) := by
  obtain ⟨t, counted, cases⟩ := step_counted sound file lexeme
  exact ⟨t, _, counted, cases⟩

theorem mode_plain (outside : s.mode = .plain) (file : String) (n : Nat) (d : Char) :
    (s.plain file n [d]).mode = Mode.next .plain d := by
  by_cases comment : d = ';'
  · rw [comment]
    rfl
  by_cases opening : d = '"'
  · rw [opening]
    rfl
  have stays : Mode.next .plain d = .plain := by simp [Mode.next, comment, opening]
  rw [stays]
  unfold Scan.plain
  split
  · exact s.mode_endLine n
  split
  · exact s.mode_endLine n
  split
  · exact (s.mode_label file n [d]).trans outside
  split
  · exact outside
  split
  · rename_i same
    exact absurd (by simpa using same) comment
  split
  · rename_i same
    exact absurd (by simpa using same) opening
  · exact outside

theorem mode_quoted {escaped : Bool} (inside : s.mode = .quoted escaped) (d : Char) :
    (s.quoted escaped [d]).mode = Mode.next (.quoted escaped) d := by
  cases escaped with
  | true => rfl
  | false =>
    by_cases escape : d = '\\'
    · rw [escape]
      rfl
    by_cases closing : d = '"'
    · rw [closing]
      rfl
    have stays : Mode.next (.quoted false) d = .quoted false := by
      simp [Mode.next, escape, closing]
    have pushed : s.quoted false [d] = s.push [d] := by simp [Scan.quoted, escape, closing]
    rw [stays, pushed]
    exact inside

theorem mode_step (given : IsLexeme lexeme) (sound : (s.step file lexeme).fault = none) :
    (s.step file lexeme).mode = lexeme.foldl Mode.next s.mode := by
  have before := sound_of_step sound
  cases given with
  | delimiter d delimits =>
    obtain ⟨t, m, numbered, cases⟩ := step_cases before file [d]
    have kept : t.mode = s.mode := by rw [numbered]
    rw [List.foldl_cons, List.foldl_nil]
    rcases cases with ⟨mode, same⟩ | ⟨mode, broken, same⟩ | ⟨mode, unbroken, same⟩ |
      ⟨escaped, mode, same⟩
    · rw [same, mode]
      exact mode_plain (kept.trans mode) file _ d
    · obtain rfl : d = '\n' := by simpa using broken
      rw [same, mode]
      exact mode_endLine t _
    · have stays : Mode.next .comment d = .comment := by simpa [Mode.next] using unbroken
      rw [same, mode, stays]
      exact kept.trans mode
    · rw [same, mode]
      exact mode_quoted (kept.trans mode) d
  | run filled whole =>
    rw [step_run whole before, Mode.next_run filled whole]
    cases mode : s.mode with
    | plain =>
      dsimp only
      split
      · exact (s.mode_label file _ lexeme).trans mode
      · exact mode
    | comment => exact mode
    | quoted escaped => rfl

theorem mode_steps {lexemes : List (List Char)} (given : ∀ l ∈ lexemes, IsLexeme l)
    (sound : (lexemes.foldl (step file) s).fault = none) :
    (lexemes.foldl (step file) s).mode = lexemes.flatten.foldl Mode.next s.mode := by
  induction lexemes generalizing s with
  | nil => rfl
  | cons lexeme rest ih =>
    obtain ⟨first, later⟩ := List.forall_mem_cons.1 given
    rw [List.foldl_cons] at sound
    rw [List.foldl_cons, ih later sound, mode_step first (sound_of_steps sound),
      List.flatten_cons, List.foldl_append]

/-! The numbers of lines. -/

theorem number_flush (s : Scan) : s.flush.number = s.number := by
  unfold flush
  split <;> rfl

theorem number_endLine (s : Scan) (n : Nat) : (s.endLine n).number = s.number := by
  unfold endLine
  dsimp only
  split <;> exact s.number_flush

theorem number_label (s : Scan) (file : String) (n : Nat) (lexeme : List Char) :
    (s.label file n lexeme).number = s.number := by
  unfold label
  dsimp only
  split <;> exact s.number_flush

theorem number_plain (s : Scan) (file : String) (n : Nat) (lexeme : List Char) :
    (s.plain file n lexeme).number = s.number := by
  unfold Scan.plain
  split
  · exact s.number_endLine n
  split
  · exact s.number_endLine n
  split
  · exact s.number_label file n lexeme
  split
  · rfl
  split
  · rfl
  split <;> rfl

theorem number_quoted (s : Scan) (escaped : Bool) (lexeme : List Char) :
    (s.quoted escaped lexeme).number = s.number := by
  unfold Scan.quoted
  dsimp only
  split
  · rfl
  split
  · rfl
  split <;> rfl

theorem number_step (sound : s.fault = none) (file : String) (given : IsLexeme lexeme) :
    (s.step file lexeme).number = s.number + lexeme.count '\n' := by
  obtain ⟨t, counted, cases⟩ := step_counted sound file lexeme
  have number : t.number = s.number + lexeme.count '\n' := by rw [counted, given.count_break]
  rw [← number]
  rcases cases with ⟨_, same⟩ | ⟨_, _, same⟩ | ⟨_, _, same⟩ | ⟨escaped, _, same⟩
  · rw [same, number_plain]
  · rw [same, number_endLine]
  · rw [same]
  · rw [same, number_quoted]

theorem number_steps {lexemes : List (List Char)} (given : ∀ l ∈ lexemes, IsLexeme l)
    (sound : (lexemes.foldl (step file) s).fault = none) :
    (lexemes.foldl (step file) s).number = s.number + lexemes.flatten.count '\n' := by
  induction lexemes generalizing s with
  | nil => rfl
  | cons lexeme rest ih =>
    obtain ⟨first, later⟩ := List.forall_mem_cons.1 given
    rw [List.foldl_cons] at sound
    have before := sound_of_step (sound_of_steps sound)
    rw [List.foldl_cons, ih later sound, number_step before file first, List.flatten_cons,
      List.count_append, Nat.add_assoc]

/-! What has ended. -/

theorem pieces_flush (s : Scan) : s.flush.pieces = s.pieces := by
  unfold flush
  split <;> rfl

theorem pieces_quoted (s : Scan) (escaped : Bool) (lexeme : List Char) :
    (s.quoted escaped lexeme).pieces = s.pieces := by
  unfold Scan.quoted
  dsimp only
  split
  · rfl
  split
  · rfl
  split <;> rfl

theorem tokens_numbered (s : Scan) (k : Nat) :
    { s with number := k }.flush.tokens = s.flush.tokens := by
  unfold flush finishToken pending
  split <;> rfl

theorem pieces_of_endLine (s : Scan) (n : Nat) :
    (s.endLine n).pieces =
      (if s.flush.tokens.isEmpty then [] else [.line s.flush.tokens.reverse n]) ++ s.pieces := by
  have flushed := s.pieces_flush
  unfold endLine
  dsimp only
  split
  · exact flushed
  · rw [flushed]
    rfl

theorem pieces_of_label (s : Scan) (file : String) (n : Nat) (lexeme : List Char) :
    (s.label file n lexeme).pieces =
      (if s.flush.tokens.isEmpty then [.line [String.ofList lexeme] n] else []) ++ s.pieces := by
  have flushed := s.pieces_flush
  unfold label
  dsimp only
  split
  · rw [flushed]
    rfl
  · exact flushed

theorem pieces_of_plain (s : Scan) (file : String) (n : Nat) (lexeme : List Char) :
    (s.plain file n lexeme).pieces =
      ((ended .plain s.flush.tokens.reverse lexeme).map (Piece.ofTokens n)).reverse ++
        s.pieces := by
  have line := s.pieces_of_endLine n
  unfold Scan.plain ended
  simp only [Mode.isEnding_plain, List.isEmpty_reverse]
  split
  · rename_i breaks
    have unclosed : (lexeme == ['\x7d']) = false := by
      simp only [Bool.or_eq_true, beq_iff_eq] at breaks
      rcases breaks with rfl | rfl <;> rfl
    rw [line, breaks, unclosed]
    cases s.flush.tokens.isEmpty <;> rfl
  rename_i unbroken
  rw [Bool.not_eq_true] at unbroken
  split
  · rename_i closing
    rw [unbroken, closing, close]
    dsimp only
    rw [line]
    cases s.flush.tokens.isEmpty <;> rfl
  rename_i unclosed
  rw [Bool.not_eq_true] at unclosed
  rw [unbroken, unclosed]
  split
  · rename_i labelled
    rw [s.pieces_of_label, labelled]
    cases s.flush.tokens.isEmpty <;> rfl
  rename_i unlabelled
  rw [Bool.not_eq_true] at unlabelled
  rw [unlabelled]
  split
  · rfl
  split
  · rfl
  split <;> rfl

theorem pieces_of_step (sound : s.fault = none) (file : String) (lexeme : List Char) :
    (s.step file lexeme).pieces =
      ((ended s.mode s.flush.tokens.reverse lexeme).map (Piece.ofTokens s.number)).reverse ++
        s.pieces := by
  obtain ⟨t, m, counted, cases⟩ := step_cases sound file lexeme
  have tokens : t.flush.tokens = s.flush.tokens := by rw [counted, tokens_numbered]
  have pieces : t.pieces = s.pieces := by rw [counted]
  rw [← tokens, ← pieces]
  rcases cases with ⟨mode, same⟩ | ⟨mode, broken, same⟩ | ⟨mode, unbroken, same⟩ |
    ⟨escaped, mode, same⟩
  · rw [same, mode, t.pieces_of_plain]
  · rw [same, mode, broken, t.pieces_of_endLine, ended]
    simp only [Mode.isEnding_comment, List.isEmpty_reverse]
    cases t.flush.tokens.isEmpty <;> rfl
  · have other : (lexeme == ['\n']) = false := by simpa using unbroken
    rw [same, mode, ended]
    simp only [Mode.isEnding_comment, other]
    rfl
  · rw [same, mode, pieces_quoted, ended]
    simp only [Mode.isEnding_quoted]
    rfl

end

end Scan

theorem Lines.fault_ofPieces (file : String) (fault : Option Fault) (pieces : List Piece) :
    (ofPieces file fault pieces).fault = fault := by
  induction pieces with
  | nil => rfl
  | cons p rest ih =>
    cases p with
    | line tokens n => exact ih
    | close n =>
      cases rest with
      | nil =>
        cases fault <;> rfl
      | cons next later =>
        rw [ofPieces]
        split
        · exact ih
        · exact ih

end WordAsm.Tokenizer
