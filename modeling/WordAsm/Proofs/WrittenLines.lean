import WordAsm.Proofs.PlainTexts
import WordAsm.Proofs.SourceCoverage

/-!
Lines as they are written: a label, or a first token and operands with commas between them and
perhaps a comment behind them. The tokenizer finds the tokens again, those that are strings with all
that stands between their quotes.
-/
namespace WordAsm

theorem Text.trimChars_indented {blanks : List Char} (blank : ∀ c ∈ blanks, isBlank c = true)
    (cs : List Char) : trimChars (blanks ++ cs) = trimChars cs := by
  rw [trimChars, List.dropWhile_append_of_pos blank, trimChars]

theorem Text.trimChars_trailing {c : Char} (blank : isBlank c = true) (cs : List Char) :
    trimChars (cs ++ [c]) = trimChars cs := by
  rw [trimChars, trimChars, List.dropWhile_append]
  cases rest : cs.dropWhile isBlank with
  | nil => simp [blank]
  | cons d ds => simp [blank]

namespace Tokenizer

namespace Scan

def pushAll (s : Scan) (lexemes : List (List Char)) : Scan :=
  { s with current := lexemes.reverse ++ s.current }

theorem pushAll_cons (s : Scan) (lexeme : List Char) (rest : List (List Char)) :
    (s.push lexeme).pushAll rest = s.pushAll (lexeme :: rest) := by
  simp [pushAll, push]

end Scan

/-- A text that is a token wherever it stands outside of comments and strings. -/
structure IsToken (cs : List Char) : Prop where
  filled : cs ≠ []
  trimmed : Text.trimChars cs = cs
  pushed : ∀ (file : String) (s : Scan), s.mode = .plain → s.fault = none →
    (lexemes cs).foldl (Scan.step file) s = s.pushAll (lexemes cs)

/-- A text that is one token wherever it stands between delimiters. -/
structure IsSolid (cs : List Char) : Prop where
  filled : cs ≠ []
  whole : ∀ c ∈ cs, isDelimiter c = false
  visible : ∀ c ∈ cs, Text.isBlank c = false
  unlabelled : ':' ∉ cs

theorem isSolid_of_plain {cs : List Char} (plain : Text.IsPlain cs) : IsSolid cs := by
  refine ⟨plain.nonempty, ?_, ?_, ?_⟩
  · intro c member
    exact Macro.forall_wordChar (p := fun c => isDelimiter c = false) (by decide)
      (plain.word c member)
  · intro c member
    exact Text.isBlank_word (plain.word c member)
  · exact plain.not_mem rfl

theorem IsSolid.append {cs ds : List Char} (first : IsSolid cs) (later : IsSolid ds) :
    IsSolid (cs ++ ds) := by
  refine ⟨by simp [first.filled], ?_, ?_, ?_⟩
  · intro c member
    rcases List.mem_append.1 member with member | member
    · exact first.whole c member
    · exact later.whole c member
  · intro c member
    rcases List.mem_append.1 member with member | member
    · exact first.visible c member
    · exact later.visible c member
  · intro member
    rcases List.mem_append.1 member with member | member
    · exact first.unlabelled member
    · exact later.unlabelled member

theorem IsSolid.isLabelChars {cs : List Char} (solid : IsSolid cs) :
    Token.isLabelChars cs = false := by
  rw [Token.isLabelChars, Bool.or_eq_false_iff, beq_eq_false_iff_ne, beq_eq_false_iff_ne]
  constructor
  · intro first
    exact solid.unlabelled (List.mem_of_mem_head? first)
  · intro last
    exact solid.unlabelled (List.mem_of_getLast? last)

theorem IsSolid.isToken {cs : List Char} (solid : IsSolid cs) : IsToken cs := by
  refine ⟨solid.filled, Text.trimChars_of_visible solid.visible, ?_⟩
  intro file s plain sound
  rw [lexemes_run solid.filled solid.whole, List.foldl_cons, List.foldl_nil,
    Scan.step_run solid.whole sound, plain]
  simp only [solid.isLabelChars, Bool.false_eq_true, if_false]
  rfl

/-! Strings. -/

namespace Mode

/-- Whether all characters of a text are read within a string. -/
def within : Mode → List Char → Bool
  | _, [] => true
  | m, c :: cs => m.isQuoted && within (m.next c) cs

theorem within_behind {m : Mode} {cs ds : List Char} (inside : m.within (cs ++ ds) = true) :
    (cs.foldl next m).within ds = true := by
  induction cs generalizing m with
  | nil => exact inside
  | cons c cs ih => exact ih (Bool.and_eq_true_iff.1 inside).2

end Mode

namespace Scan

theorem step_quoted {s : Scan} {lexeme : List Char} (given : IsLexeme lexeme)
    (sound : s.fault = none) {escaped : Bool} (quoted : s.mode = .quoted escaped)
    (single : lexeme ≠ ['\n']) (file : String) :
    s.step file lexeme =
      { s with current := lexeme :: s.current, mode := lexeme.foldl Mode.next s.mode } := by
  have unbroken : (lexeme == ['\n']) = false := by simpa using single
  have stepped : s.step file lexeme = s.quoted escaped lexeme := by
    simp only [step, sound, unbroken, quoted, Option.isSome_none, Bool.false_eq_true, if_false]
  have kept : (s.step file lexeme).fault = none := by
    rw [stepped]
    unfold Scan.quoted
    split
    · exact sound
    split
    · exact sound
    split <;> exact sound
  rw [← mode_step given kept, stepped]
  unfold Scan.quoted
  dsimp only
  split
  · rfl
  split
  · rfl
  split <;> rfl

theorem steps_quoted {s : Scan} {lexemes : List (List Char)} (given : ∀ l ∈ lexemes, IsLexeme l)
    (sound : s.fault = none) (inside : s.mode.within lexemes.flatten = true)
    (single : '\n' ∉ lexemes.flatten) (file : String) :
    lexemes.foldl (step file) s =
      { s with
        current := lexemes.reverse ++ s.current
        mode := lexemes.flatten.foldl Mode.next s.mode } := by
  induction lexemes generalizing s with
  | nil => rfl
  | cons lexeme rest ih =>
    obtain ⟨first, later⟩ := List.forall_mem_cons.1 given
    rw [List.flatten_cons] at inside single
    have unbroken : lexeme ≠ ['\n'] := by
      rintro rfl
      exact single (by simp)
    obtain ⟨escaped, quoted⟩ : ∃ escaped, s.mode = .quoted escaped := by
      obtain ⟨c, cs, rfl⟩ := List.exists_cons_of_ne_nil first.ne_nil
      have here := (Bool.and_eq_true_iff.1 inside).1
      cases mode : s.mode with
      | quoted escaped => exact ⟨escaped, rfl⟩
      | _ => simp [mode, Mode.isQuoted] at here
    rw [List.foldl_cons, step_quoted first sound quoted unbroken, ih later]
    · simp
    · exact sound
    · exact Mode.within_behind inside
    · intro member
      exact single (List.mem_append_right _ member)

end Scan

theorem lexemes_cons {d : Char} (delimits : isDelimiter d = true) (cs : List Char) :
    lexemes (d :: cs) = [d] :: lexemes cs :=
  attach_delimiter delimits _

theorem isToken_quoted {flags body : List Char} (solid : flags ≠ [] → IsSolid flags)
    (inside : (Mode.quoted false).within (body ++ ['"']) = true)
    (ended : (body ++ ['"']).foldl Mode.next (.quoted false) = .plain) (single : '\n' ∉ body) :
    IsToken (flags ++ '"' :: (body ++ ['"'])) := by
  refine ⟨by simp, ?_, ?_⟩
  · have last : (flags ++ '"' :: (body ++ ['"'])).getLast? = some '"' := by
      rw [← List.cons_append, ← List.append_assoc, List.getLast?_concat]
    refine Text.trimChars_of_notBlank ?_ (by rw [last]; rfl)
    by_cases none : flags = []
    · rw [none]
      rfl
    · obtain ⟨c, cs, rfl⟩ := List.exists_cons_of_ne_nil none
      simp [(solid none).visible c]
  · intro file s plain sound
    have front : (lexemes flags).foldl (Scan.step file) s = s.pushAll (lexemes flags) := by
      by_cases none : flags = []
      · rw [none]
        rfl
      · exact (solid none).isToken.pushed file s plain sound
    have opened : (s.pushAll (lexemes flags)).step file ['"'] =
        { s with
          current := ['"'] :: ((lexemes flags).reverse ++ s.current)
          mode := .quoted false } := by
      simp only [Scan.step, Scan.pushAll, sound, plain]
      rfl
    rw [lexemes_before rfl, lexemes_cons rfl, List.foldl_append, front, List.foldl_cons, opened,
      Scan.steps_quoted (isLexeme_of_mem _)]
    · simp only [flatten_lexemes, ended, Scan.pushAll, plain]
      simp
    · exact sound
    · rwa [flatten_lexemes]
    · rw [flatten_lexemes]
      simpa using single

/-! Statements. -/

theorem lexemes_blanks (n : Nat) (cs : List Char) :
    lexemes (List.replicate n ' ' ++ cs) = List.replicate n [' '] ++ lexemes cs := by
  induction n with
  | zero => rfl
  | succ n ih =>
    rw [List.replicate_succ, List.replicate_succ, List.cons_append, List.cons_append,
      lexemes_cons rfl, ih]

namespace Scan

def addToken (s : Scan) (text : String) : Scan :=
  { s with tokens := text :: s.tokens, current := [] }

def IsBlank (s : Scan) : Prop := ∀ c ∈ s.current.reverse.flatten, Text.isBlank c = true

theorem isBlank_of_empty {s : Scan} (none : s.current = []) : s.IsBlank := by
  simp [IsBlank, none]

theorem IsBlank.blanks {s : Scan} (blank : s.IsBlank) (n : Nat) :
    (s.pushAll (List.replicate n [' '])).IsBlank := by
  intro c member
  rw [pushAll, List.reverse_append, List.reverse_reverse, List.flatten_append] at member
  rcases List.mem_append.1 member with before | here
  · exact blank c before
  · obtain ⟨lexeme, inside, member⟩ := List.mem_flatten.1 here
    rw [List.eq_of_mem_replicate inside, List.mem_singleton] at member
    rw [member]
    rfl

theorem pending_pushAll {s : Scan} (blank : s.IsBlank)
    {cs : List Char} (token : IsToken cs) : (s.pushAll (lexemes cs)).pending = cs := by
  rw [pending, pushAll, List.reverse_append, List.reverse_reverse, List.flatten_append,
    flatten_lexemes, Text.trimChars_indented blank, token.trimmed]

theorem finishToken_pushAll {s : Scan}
    (blank : s.IsBlank) {text : String}
    (token : IsToken text.toList) :
    (s.pushAll (lexemes text.toList)).finishToken = s.addToken text := by
  rw [finishToken, pending_pushAll blank token, String.ofList_toList]
  rfl

theorem endLine_pushAll {s : Scan}
    (blank : s.IsBlank) {text : String}
    (token : IsToken text.toList) (n : Nat) :
    (s.pushAll (lexemes text.toList)).endLine n =
      { s with
        mode := .plain
        tokens := []
        current := []
        pieces := .line (s.tokens.reverse ++ [text]) n :: s.pieces } := by
  have filled : (s.pushAll (lexemes text.toList)).pending.isEmpty = false := by
    rw [pending_pushAll blank token]
    simpa using token.filled
  have flushed : (s.pushAll (lexemes text.toList)).flush = s.addToken text := by
    rw [flush, if_neg (by simp [filled]), finishToken_pushAll blank token]
  simp only [endLine, flushed, addToken, List.isEmpty_cons, List.reverse_cons, Bool.false_eq_true,
    if_false]

theorem pending_blank {s : Scan} (blank : s.IsBlank) : s.pending = [] := by
  have trimmed := Text.trimChars_indented blank []
  rwa [List.append_nil] at trimmed

section

variable {s : Scan} (plain : s.mode = .plain) (sound : s.fault = none)

include plain sound

theorem step_plain {lexeme : List Char} (single : lexeme ≠ ['\n']) (file : String) :
    s.step file lexeme = s.plain file s.number lexeme := by
  have unbroken : (lexeme == ['\n']) = false := by simpa using single
  simp only [step, sound, unbroken, plain, Option.isSome_none, Bool.false_eq_true, if_false]

theorem step_break (file : String) :
    s.step file ['\n'] = { s with number := s.number + 1 }.endLine s.number := by
  simp only [step, sound, plain]
  rfl

theorem step_blank (blank : s.IsBlank) (file : String) : s.step file [' '] = s.push [' '] := by
  have unfinished : (s.tokens.isEmpty && !s.pending.isEmpty) = false := by
    rw [pending_blank blank]
    exact Bool.and_false _
  rw [step_plain plain sound (by decide)]
  simp only [Scan.plain, Bool.and_assoc, unfinished]
  rfl

theorem steps_blanks (blank : s.IsBlank) (n : Nat) (file : String) :
    (List.replicate n [' ']).foldl (step file) s = s.pushAll (List.replicate n [' ']) := by
  induction n generalizing s with
  | zero => rfl
  | succ n ih =>
    have later := @ih (s.push [' ']) plain sound (blank.blanks 1)
    rw [List.replicate_succ, List.foldl_cons, step_blank plain sound blank, later, pushAll_cons]

theorem step_comma (file : String) : s.step file [','] = s.finishToken := by
  rw [step_plain plain sound (by decide)]
  rfl

theorem step_gap (none : s.tokens = []) (filled : s.pending ≠ []) (file : String) :
    s.step file [' '] = s.finishToken := by
  have unfinished : s.pending.isEmpty = false := by simpa using filled
  rw [step_plain plain sound (by decide)]
  simp only [Scan.plain, none, unfinished]
  rfl

theorem flush_blank (file : String) :
    ∃ tokens current, s.step file [' '] = { s with tokens, current } ∧
      { s with tokens, current }.flush = s.flush := by
  rw [step_plain plain sound (by decide)]
  cases gap : s.tokens.isEmpty && !s.pending.isEmpty with
  | true =>
    have filled : s.pending.isEmpty = false := by
      simpa using (Bool.and_eq_true_iff.1 gap).2
    refine ⟨_, [], by simp only [Scan.plain, Bool.and_assoc, gap]; rfl, ?_⟩
    rw [flush, flush, filled, pending_blank (isBlank_of_empty rfl)]
    rfl
  | false =>
    refine ⟨_, [' '] :: s.current, by simp only [Scan.plain, Bool.and_assoc, gap]; rfl, ?_⟩
    have same : { s with current := [' '] :: s.current }.pending = s.pending := by
      rw [pending, List.reverse_cons, List.flatten_append, pending]
      exact Text.trimChars_trailing rfl _
    rw [flush, flush, finishToken, finishToken, same]

omit plain in
theorem steps_skipped {lexemes : List (List Char)} (skipped : ['\n'] ∉ lexemes) (file : String) :
    lexemes.foldl (step file) { s with mode := .comment } = { s with mode := .comment } := by
  induction lexemes with
  | nil => rfl
  | cons lexeme rest ih =>
    rw [List.mem_cons, not_or] at skipped
    have unbroken : (lexeme == ['\n']) = false := by simpa using Ne.symm skipped.1
    have stepped : step file { s with mode := .comment } lexeme = { s with mode := .comment } := by
      simp only [step, sound, unbroken, Option.isSome_none, Bool.false_eq_true, if_false]
    rw [List.foldl_cons, stepped, ih skipped.2]

theorem steps_comment {body : List Char} (single : '\n' ∉ body) (file : String) :
    (lexemes (' ' :: ';' :: (body ++ ['\n']))).foldl (step file) s = s.step file ['\n'] := by
  obtain ⟨tokens, current, blank, flushed⟩ := flush_blank plain sound file
  have chars : lexemes (' ' :: ';' :: (body ++ ['\n'])) =
      [' '] :: [';'] :: (lexemes body ++ [['\n']]) := by
    rw [lexemes_cons rfl, lexemes_cons rfl, lexemes_before rfl]
    rfl
  have opened : step file { s with tokens, current } [';'] =
      { s with tokens, current, mode := .comment } := by
    rw [step_plain (s := { s with tokens, current }) plain sound (by decide)]
    rfl
  have within : ['\n'] ∉ lexemes body := by
    intro member
    rw [← flatten_lexemes body] at single
    exact single (List.mem_flatten.2 ⟨_, member, List.mem_singleton_self _⟩)
  have skipped := steps_skipped (s := { s with tokens, current }) sound within file
  have broken : step file { s with tokens, current, mode := .comment } ['\n'] =
      { s with tokens, current, mode := .comment, number := s.number + 1 }.endLine s.number := by
    simp only [step, sound]
    rfl
  have moved (t : Scan) (mode : Mode) (number : Nat) :
      { { t with mode, number }.flush with mode := .plain } =
        { t.flush with mode := .plain, number } := by
    have pending : { t with mode, number }.pending = t.pending := rfl
    rw [flush, flush, finishToken, finishToken, pending]
    split <;> rfl
  have same : { { s with tokens, current, mode := .comment, number := s.number + 1 }.flush with
      mode := .plain } = { { s with number := s.number + 1 }.flush with mode := .plain } := by
    rw [moved { s with tokens, current } .comment (s.number + 1), flushed]
    exact (moved s s.mode (s.number + 1)).symm
  rw [chars, List.foldl_cons, blank, List.foldl_cons, opened, List.foldl_append, skipped,
    List.foldl_cons, List.foldl_nil, broken, step_break plain sound]
  exact congrArg (fun t : Scan => if t.tokens.isEmpty then t else
    { t with tokens := [], pieces := .line t.tokens.reverse s.number :: t.pieces }) same

end

/-- A text that ends a line like a line break. -/
structure IsBreak (tail : List Char) : Prop where
  delimited : tail.head?.any isDelimiter = true
  ended : tail.getLast? = some '\n'
  steps : ∀ {s : Scan}, s.mode = .plain → s.fault = none → ∀ file,
    (lexemes tail).foldl (step file) s = s.step file ['\n']

theorem isBreak_newline : IsBreak ['\n'] := ⟨rfl, rfl, fun _ _ _ => rfl⟩

theorem isBreak_comment {body : List Char} (single : '\n' ∉ body) :
    IsBreak (' ' :: ';' :: (body ++ ['\n'])) := by
  refine ⟨rfl, ?_, fun plain sound file => steps_comment plain sound single file⟩
  rw [← List.cons_append, ← List.cons_append, List.getLast?_concat]

theorem IsBreak.lexemes_append {tail : List Char} (broken : IsBreak tail) (cs : List Char) :
    lexemes (cs ++ tail) = lexemes cs ++ lexemes tail := by
  have delimited := broken.delimited
  cases tail with
  | nil => cases delimited
  | cons d rest => exact lexemes_before (by simpa using delimited) cs rest

section

variable {s : Scan} (plain : s.mode = .plain) (sound : s.fault = none)

include plain sound

section

variable (blank : s.IsBlank)

include blank

theorem steps_first (none : s.tokens = []) {first : String} (token : IsToken first.toList)
    (later : List Char) (file : String) :
    (lexemes (first.toList ++ ' ' :: later)).foldl (step file) s =
      (lexemes later).foldl (step file) (s.addToken first) := by
  have filled : (s.pushAll (lexemes first.toList)).pending ≠ [] := by
    rw [pending_pushAll blank token]
    exact token.filled
  have finished := @step_gap (s.pushAll (lexemes first.toList)) plain sound none filled file
  rw [lexemes_before rfl, lexemes_cons rfl, List.foldl_append, token.pushed file s plain sound,
    List.foldl_cons, finished, finishToken_pushAll blank token]

theorem steps_operands {operands : List String} (given : operands ≠ [])
    (each : ∀ operand ∈ operands, IsToken operand.toList) {tail : List Char} (broken : IsBreak tail)
    (file : String) :
    (lexemes ((", ".intercalate operands).toList ++ tail)).foldl (step file) s =
      { s with
        number := s.number + 1
        tokens := []
        current := []
        pieces := .line (s.tokens.reverse ++ operands) s.number :: s.pieces } := by
  induction operands generalizing s with
  | nil => exact absurd rfl given
  | cons operand rest ih =>
    obtain ⟨token, later⟩ := List.forall_mem_cons.1 each
    have pushed := token.pushed file s plain sound
    cases rest with
    | nil =>
      have ended := endLine_pushAll (s := { s with number := s.number + 1 }) blank token s.number
      rw [String.intercalate_singleton, broken.lexemes_append, List.foldl_append, pushed,
        broken.steps (s := s.pushAll (lexemes operand.toList)) plain sound,
        step_break (s := s.pushAll (lexemes operand.toList)) plain sound]
      refine ended.trans ?_
      rw [← plain]
    | cons next rest =>
      have chars : (", ".intercalate (operand :: next :: rest)).toList ++ tail =
          operand.toList ++ ',' :: ' ' :: ((", ".intercalate (next :: rest)).toList ++ tail) := by
        rw [String.intercalate_cons_cons, String.toList_append, String.toList_append,
          List.append_assoc, List.append_assoc]
        rfl
      have finished := @step_comma (s.pushAll (lexemes operand.toList)) plain sound file
      have none := isBlank_of_empty (s := s.addToken operand) rfl
      have indented := step_blank (s := s.addToken operand) plain sound none file
      have others := ih (s := (s.addToken operand).push [' ']) plain sound (none.blanks 1) (by simp)
        later
      rw [chars, lexemes_before rfl, lexemes_cons rfl, lexemes_cons rfl, List.foldl_append, pushed,
        List.foldl_cons, finished, finishToken_pushAll blank token, List.foldl_cons, indented]
      refine others.trans ?_
      simp [push, addToken]

end

end

def addLine (s : Scan) (tokens : List String) : Scan :=
  { s with number := s.number + 1, pieces := .line tokens s.number :: s.pieces }

/-- Nothing has been read of a line. -/
structure IsIdle (s : Scan) : Prop where
  plain : s.mode = .plain
  tokens : s.tokens = []
  current : s.current = []
  sound : s.fault = none

theorem IsIdle.flush {s : Scan} (idle : s.IsIdle) : s.flush = s := by
  rw [Scan.flush, pending_blank (isBlank_of_empty idle.current), ← idle.current]
  rfl

theorem IsIdle.step_break {s : Scan} (idle : s.IsIdle) (file : String) :
    s.step file ['\n'] = { s with number := s.number + 1 } := by
  have numbered : IsIdle { s with number := s.number + 1 } :=
    ⟨idle.plain, idle.tokens, idle.current, idle.sound⟩
  rw [Scan.step_break idle.plain idle.sound, endLine, numbered.flush]
  simp only [idle.tokens, idle.plain, List.isEmpty_nil, if_true]

theorem IsIdle.addLine {s : Scan} (idle : s.IsIdle) (tokens : List String) :
    (s.addLine tokens).IsIdle :=
  ⟨idle.plain, idle.tokens, idle.current, idle.sound⟩

theorem IsIdle.addLines {s : Scan} (idle : s.IsIdle) (lines : List (List String)) :
    (lines.foldl Scan.addLine s).IsIdle := by
  induction lines generalizing s with
  | nil => exact idle
  | cons tokens lines ih => exact ih (idle.addLine tokens)

end Scan

/-- The text is made of lines with these tokens, each of which ends with a line break. -/
structure Writes (lines : List (List String)) (cs : List Char) : Prop where
  ended : cs.getLast?.all (· == '\n') = true
  scanned : ∀ (file : String) (s : Scan), s.IsIdle →
    (lexemes cs).foldl (Scan.step file) s = lines.foldl Scan.addLine s

namespace Writes

theorem nil : Writes [] [] := ⟨rfl, fun _ _ _ => rfl⟩

theorem append {lines lines' : List (List String)} {cs cs' : List Char} (first : Writes lines cs)
    (later : Writes lines' cs') : Writes (lines ++ lines') (cs ++ cs') := by
  refine ⟨?_, ?_⟩
  · rw [List.getLast?_append]
    cases last : cs'.getLast? with
    | none => simpa using first.ended
    | some c => simpa [last] using later.ended
  · intro file s idle
    rw [lexemes_append first.ended, List.foldl_append, first.scanned file s idle,
      later.scanned file _ (idle.addLines lines), List.foldl_append]

theorem statement {first : String} (token : IsToken first.toList) {operands : List String}
    (given : operands ≠ []) (each : ∀ operand ∈ operands, IsToken operand.toList)
    {tail : List Char} (broken : Scan.IsBreak tail) (lead gap : Nat) :
    Writes [first :: operands] (List.replicate lead ' ' ++ (first.toList ++
      ' ' :: (List.replicate gap ' ' ++ ((", ".intercalate operands).toList ++ tail)))) := by
  refine ⟨by simp [List.getLast?_append, List.getLast?_cons, broken.ended], ?_⟩
  intro file s idle
  have none := Scan.isBlank_of_empty idle.current
  have none' := Scan.isBlank_of_empty (s := s.addToken first) rfl
  have named := Scan.steps_first (s := s.pushAll (List.replicate lead [' '])) idle.plain idle.sound
    (none.blanks lead) idle.tokens token
  have indented := Scan.steps_blanks (s := s.addToken first) idle.plain idle.sound none' gap file
  have ended := Scan.steps_operands (s := (s.addToken first).pushAll (List.replicate gap [' ']))
    idle.plain idle.sound (none'.blanks gap) given each broken file
  rw [lexemes_blanks, List.foldl_append, Scan.steps_blanks idle.plain idle.sound none, named,
    lexemes_blanks, List.foldl_append]
  refine (congrArg (List.foldl _ · _) indented).trans (ended.trans ?_)
  simp [Scan.addLine, Scan.addToken, Scan.pushAll, idle.tokens, idle.current]

theorem label {name : String} (whole : ∀ c ∈ name.toList, isDelimiter c = false) :
    Writes [[":" ++ name]] ((":" ++ name).toList ++ ['\n']) := by
  refine ⟨by rw [List.getLast?_concat]; rfl, ?_⟩
  intro file s idle
  have run : ∀ c ∈ (":" ++ name).toList, isDelimiter c = false := by
    intro c member
    rw [String.toList_append] at member
    rcases List.mem_append.1 member with colon | member
    · rw [List.mem_singleton.1 colon]
      rfl
    · exact whole c member
  have isLabel : Token.isLabelChars (":" ++ name).toList = true := by
    rw [String.toList_append]
    rfl
  have labelled : s.step file (":" ++ name).toList =
      { s with pieces := .line [":" ++ name] s.number :: s.pieces } := by
    rw [Scan.step_run run idle.sound, idle.plain]
    simp only [isLabel, if_true, Scan.label, idle.flush, idle.tokens, idle.plain,
      List.isEmpty_nil, String.ofList_toList]
  have after : Scan.IsIdle { s with pieces := .line [":" ++ name] s.number :: s.pieces } :=
    ⟨idle.plain, idle.tokens, idle.current, idle.sound⟩
  rw [lexemes_before rfl, lexemes_run (by simp) run, lexemes_cons rfl, List.singleton_append,
    List.foldl_cons, labelled, List.foldl_cons, after.step_break]
  rfl

end Writes

def linesFrom (file : String) : Nat → List (List String) → List Line
  | _, [] => []
  | n, tokens :: rest => ⟨tokens, "", [], file, n⟩ :: linesFrom file (n + 1) rest

def piecesFrom : Nat → List (List String) → List Piece
  | _, [] => []
  | n, tokens :: rest => .line tokens n :: piecesFrom (n + 1) rest

theorem pieces_addLines (s : Scan) (lines : List (List String)) :
    (lines.foldl Scan.addLine s).pieces.reverse =
      s.pieces.reverse ++ piecesFrom s.number lines := by
  induction lines generalizing s with
  | nil => exact (List.append_nil _).symm
  | cons tokens rest ih =>
    rw [List.foldl_cons, ih]
    simp [Scan.addLine, piecesFrom]

theorem ofPieces_piecesFrom (file : String) (n : Nat) (lines : List (List String)) :
    Lines.ofPieces file none (piecesFrom n lines) = ⟨linesFrom file n lines, none⟩ := by
  induction lines generalizing n with
  | nil => rfl
  | cons tokens rest ih => rw [piecesFrom, Lines.ofPieces, ih, Lines.cons, linesFrom]

section

variable {lines : List (List String)} {text : String}

theorem Writes.tokenize (writes : Writes lines text.toList) (file : String) :
    Tokenizer.tokenize file text = ⟨linesFrom file 1 lines, none⟩ := by
  have idle : Scan.IsIdle {} := ⟨rfl, rfl, rfl, rfl⟩
  have scanned : scan file text.toList =
      { lines.foldl Scan.addLine {} with number := (lines.foldl Scan.addLine {}).number + 1 } := by
    rw [scan, lexemes_append writes.ended, List.foldl_append, writes.scanned file _ idle,
      lexemes_cons rfl, List.foldl_cons, (idle.addLines lines).step_break]
    rfl
  rw [Tokenizer.tokenize, scanned]
  dsimp only
  rw [(idle.addLines lines).sound, pieces_addLines, ← ofPieces_piecesFrom]
  rfl

theorem Writes.wholeLines (writes : Writes lines text.toList) : wholeLines? text = some lines := by
  have idle : Scan.IsIdle {} := ⟨rfl, rfl, rfl, rfl⟩
  have after := idle.addLines lines
  have found (n : Nat) : (piecesFrom n lines).mapM Piece.tokens? = some lines := by
    clear after writes
    induction lines generalizing n with
    | nil => rfl
    | cons tokens rest ih =>
      rw [piecesFrom, List.mapM_cons, ih]
      rfl
  rw [wholeLines?, writes.scanned "" _ idle]
  simp only [writes.ended, after.plain, after.tokens, after.current, after.sound, pieces_addLines]
  exact found 1

theorem Writes.tokenize_unended (writes : Writes lines (text.toList ++ ['\n'])) (file : String) :
    Tokenizer.tokenize file text = ⟨linesFrom file 1 lines, none⟩ := by
  have idle : Scan.IsIdle {} := ⟨rfl, rfl, rfl, rfl⟩
  rw [Tokenizer.tokenize, scan, writes.scanned file _ idle, (idle.addLines lines).sound,
    pieces_addLines, ← ofPieces_piecesFrom]
  rfl

end

end Tokenizer

end WordAsm
