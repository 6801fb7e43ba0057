import WordAsm.Program
import WordAsm.Proofs.ScanSteps

/-!
What becomes of the text of a source. Every run between delimiters that is not in a comment goes
into the token that is not finished, and this into a line when the line ends. So nothing is lost but
a last line that does not end, for a string that is never closed goes on to the end of the source.
-/
namespace WordAsm

namespace Text

/-! Trimming a part of a text takes away at least what trimming the text does. -/

theorem dropWhile_before (p : Char → Bool) (cs later : List Char) :
    cs.dropWhile p <+: (cs ++ later).dropWhile p := by
  rw [List.dropWhile_append]
  split
  · rename_i none
    rw [List.isEmpty_iff.1 none]
    exact List.nil_prefix
  · exact List.prefix_append _ _

theorem dropWhile_behind (p : Char → Bool) (earlier cs : List Char) :
    cs.dropWhile p <:+ (earlier ++ cs).dropWhile p := by
  rw [List.dropWhile_append]
  split
  · exact List.suffix_rfl
  · exact (List.dropWhile_suffix p).trans (List.suffix_append _ _)

theorem trimChars_before (cs later : List Char) : trimChars cs <+: trimChars (cs ++ later) := by
  obtain ⟨more, same⟩ := dropWhile_before isBlank cs later
  rw [trimChars, trimChars, ← same, List.reverse_append]
  exact List.reverse_prefix.2 (dropWhile_behind isBlank more.reverse _)

theorem trimChars_behind (earlier cs : List Char) : trimChars cs <:+ trimChars (earlier ++ cs) := by
  obtain ⟨more, same⟩ := dropWhile_behind isBlank earlier cs
  rw [trimChars, trimChars, ← same, List.reverse_append]
  exact List.reverse_suffix.2 (dropWhile_before isBlank _ more.reverse)

theorem trimChars_inside (cs : List Char) : trimChars cs <:+: cs := by
  have front : trimChars cs <+: cs.dropWhile isBlank := by
    rw [← List.reverse_suffix, trimChars, List.reverse_reverse]
    exact List.dropWhile_suffix isBlank
  exact front.isInfix.trans (List.dropWhile_suffix isBlank).isInfix

end Text

namespace Tokenizer

namespace Scan

def Kept (s : Scan) (cs : List Char) : Prop :=
  ∃ tokens n, .line tokens n ∈ s.pieces ∧ ∃ token ∈ tokens, cs <:+: token.toList

/-- or it will when its line ends. -/
inductive Holds (s : Scan) (cs : List Char) : Prop
  | kept (kept : s.Kept cs)
  | token (token : String) (member : token ∈ s.tokens) (part : cs <:+: token.toList)
  | pending (part : cs <:+: s.pending)

section

variable {s : Scan} {file : String} {lexeme cs : List Char} {n : Nat}

theorem Kept.mono {s' : Scan} (kept : s.Kept cs) (pieces : s.pieces ⊆ s'.pieces) : s'.Kept cs := by
  obtain ⟨tokens, n, member, inside⟩ := kept
  exact ⟨tokens, n, pieces member, inside⟩

theorem Holds.finishToken (holds : s.Holds cs) : s.finishToken.Holds cs := by
  cases holds with
  | kept kept => exact .kept kept
  | token token member part => exact .token token (List.mem_cons_of_mem _ member) part
  | pending part =>
    refine .token (String.ofList s.pending) List.mem_cons_self ?_
    rwa [String.toList_ofList]

theorem pending_flush (s : Scan) : s.flush.pending = [] := by
  unfold flush
  split <;> rfl

theorem Holds.flush (filled : cs ≠ []) (holds : s.Holds cs) : s.flush.Holds cs := by
  unfold Scan.flush
  split
  · rename_i blank
    cases holds with
    | kept kept => exact .kept kept
    | token token member part => exact .token token member part
    | pending part =>
      rw [List.isEmpty_iff.1 blank] at part
      exact absurd (List.eq_nil_of_infix_nil part) filled
  · exact holds.finishToken

theorem Holds.endLine (filled : cs ≠ []) (holds : s.Holds cs) (n : Nat) :
    (s.endLine n).Kept cs := by
  have flushed := holds.flush filled
  unfold Scan.endLine
  dsimp only
  split
  · rename_i empty
    cases flushed with
    | kept kept => exact kept
    | token token member part =>
      rw [List.isEmpty_iff.1 empty] at member
      cases member
    | pending part =>
      rw [pending_flush] at part
      exact absurd (List.eq_nil_of_infix_nil part) filled
  · cases flushed with
    | kept kept => exact kept.mono (List.subset_cons_self _ _)
    | token token member part =>
      exact ⟨s.flush.tokens.reverse, n, List.mem_cons_self, token, List.mem_reverse.2 member, part⟩
    | pending part =>
      rw [pending_flush] at part
      exact absurd (List.eq_nil_of_infix_nil part) filled

theorem Holds.close (filled : cs ≠ []) (holds : s.Holds cs) (n : Nat) : (s.close n).Kept cs :=
  (holds.endLine filled n).mono (List.subset_cons_self _ _)

theorem Holds.label (filled : cs ≠ []) (holds : s.Holds cs)
    (sound : (s.label file n lexeme).fault = none) : (s.label file n lexeme).Holds cs := by
  have flushed := holds.flush filled
  unfold Scan.label at sound ⊢
  dsimp only at sound ⊢
  split
  · cases flushed with
    | kept kept => exact .kept (kept.mono (List.subset_cons_self _ _))
    | token token member part => exact .token token member part
    | pending part => exact .pending part
  · rename_i misplaced
    rw [if_neg misplaced] at sound
    cases sound

theorem pending_push (s : Scan) (lexeme : List Char) :
    (s.push lexeme).pending = Text.trimChars (s.current.reverse.flatten ++ lexeme) := by
  simp [Scan.pending, push]

theorem Holds.push (holds : s.Holds cs) (lexeme : List Char) : (s.push lexeme).Holds cs := by
  cases holds with
  | kept kept => exact .kept kept
  | token token member part => exact .token token member part
  | pending part =>
    refine .pending (part.trans ?_)
    rw [pending_push]
    exact (Text.trimChars_before _ lexeme).isInfix

theorem Holds.in_mode (holds : s.Holds cs) (mode : Mode) : { s with mode }.Holds cs := by
  cases holds with
  | kept kept => exact .kept kept
  | token token member part => exact .token token member part
  | pending part => exact .pending part

theorem Holds.numbered (holds : s.Holds cs) (number : Nat) : { s with number }.Holds cs := by
  cases holds with
  | kept kept => exact .kept kept
  | token token member part => exact .token token member part
  | pending part => exact .pending part

theorem Holds.plain (filled : cs ≠ []) (holds : s.Holds cs)
    (sound : (s.plain file n lexeme).fault = none) : (s.plain file n lexeme).Holds cs := by
  unfold Scan.plain at sound ⊢
  split
  · exact .kept (holds.endLine filled n)
  rename_i unbroken
  rw [if_neg unbroken] at sound
  split
  · exact .kept (holds.close filled n)
  rename_i unclosed
  rw [if_neg unclosed] at sound
  split
  · rename_i labelled
    rw [if_pos labelled] at sound
    exact holds.label filled sound
  split
  · exact holds.finishToken
  split
  · exact holds.in_mode .comment
  split
  · exact (holds.push lexeme).in_mode _
  · exact holds.push lexeme

theorem Holds.quoted (holds : s.Holds cs) (escaped : Bool) (lexeme : List Char) :
    (s.quoted escaped lexeme).Holds cs := by
  have pushed := holds.push lexeme
  unfold Scan.quoted
  dsimp only
  split
  · exact pushed.in_mode _
  split
  · exact pushed.in_mode _
  split
  · exact pushed.in_mode _
  · exact pushed

theorem Holds.step (filled : cs ≠ []) (holds : s.Holds cs)
    (sound : (s.step file lexeme).fault = none) : (s.step file lexeme).Holds cs := by
  obtain ⟨t, m, rfl, ⟨_, same⟩ | ⟨_, _, same⟩ | ⟨_, _, same⟩ | ⟨escaped, _, same⟩⟩ :=
    step_cases (sound_of_step sound) file lexeme
  · rw [same] at sound ⊢
    exact (holds.numbered m).plain filled sound
  · rw [same]
    exact .kept ((holds.numbered m).endLine filled s.number)
  · rw [same]
    exact holds.numbered m
  · rw [same]
    exact (holds.numbered m).quoted escaped lexeme

theorem Holds.steps (filled : cs ≠ []) {lexemes : List (List Char)} (holds : s.Holds cs)
    (sound : (lexemes.foldl (Scan.step file) s).fault = none) :
    (lexemes.foldl (Scan.step file) s).Holds cs := by
  induction lexemes generalizing s with
  | nil => exact holds
  | cons lexeme rest ih =>
    rw [List.foldl_cons] at sound ⊢
    exact ih (holds.step filled (sound_of_steps sound)) sound

theorem kept_label (sound : (s.label file n cs).fault = none) :
    (s.label file n cs).Kept (Text.trimChars cs) := by
  unfold Scan.label at sound ⊢
  dsimp only at sound ⊢
  split
  · refine ⟨[String.ofList cs], n, List.mem_cons_self, String.ofList cs, List.mem_cons_self, ?_⟩
    rw [String.toList_ofList]
    exact Text.trimChars_inside cs
  · rename_i misplaced
    rw [if_neg misplaced] at sound
    cases sound

theorem holds_run (whole : ∀ c ∈ cs, isDelimiter c = false) (outside : s.mode ≠ .comment)
    (sound : (s.step file cs).fault = none) : (s.step file cs).Holds (Text.trimChars cs) := by
  have entered : (s.push cs).Holds (Text.trimChars cs) := by
    refine .pending ?_
    rw [pending_push]
    exact (Text.trimChars_behind _ cs).isInfix
  have before := sound_of_step sound
  rw [step_run whole before] at sound ⊢
  cases mode : s.mode with
  | plain =>
    rw [mode] at sound
    dsimp only at sound ⊢
    split
    · rename_i labelled
      rw [if_pos labelled] at sound
      exact .kept (kept_label sound)
    · exact entered
  | comment => exact absurd mode outside
  | quoted escaped => exact entered.in_mode _

theorem Holds.ended (filled : cs ≠ []) (holds : s.Holds cs) (sound : s.fault = none) {d : Char}
    (ends : s.mode.endsLine d = true) : (s.step file [d]).Kept cs := by
  obtain ⟨t, m, rfl, ⟨mode, same⟩ | ⟨_, _, same⟩ | ⟨mode, unbroken, _⟩ | ⟨escaped, mode, _⟩⟩ :=
    step_cases sound file [d]
  · rw [mode] at ends
    have numbered := holds.numbered m
    rw [same]
    simp only [Mode.endsLine, Bool.or_eq_true, beq_iff_eq] at ends
    rcases ends with (rfl | rfl) | rfl
    · exact numbered.endLine filled s.number
    · exact numbered.endLine filled s.number
    · exact numbered.close filled s.number
  · rw [same]
    exact (holds.numbered m).endLine filled s.number
  · rw [mode] at ends
    exact absurd (by simpa [Mode.endsLine] using ends) unbroken
  · rw [mode] at ends
    cases ends

/-! Lines that have ended stay. -/

theorem Kept.step (kept : s.Kept cs) (sound : s.fault = none) : (s.step file lexeme).Kept cs := by
  apply kept.mono
  rw [pieces_of_step sound]
  exact List.subset_append_right _ _

theorem Kept.steps {lexemes : List (List Char)} (kept : s.Kept cs)
    (sound : (lexemes.foldl (Scan.step file) s).fault = none) :
    (lexemes.foldl (Scan.step file) s).Kept cs := by
  induction lexemes generalizing s with
  | nil => exact kept
  | cons lexeme rest ih =>
    rw [List.foldl_cons] at sound ⊢
    exact ih (kept.step (sound_of_step (sound_of_steps sound))) sound

end

end Scan

namespace Lines

theorem mem_ofPieces {file : String} {tokens : List String} {n : Nat} {pieces : List Piece}
    (member : .line tokens n ∈ pieces) :
    ∃ line ∈ (ofPieces file none pieces).lines, line.tokens = tokens := by
  induction pieces with
  | nil => cases member
  | cons p rest ih =>
    cases p with
    | line tokens' n' =>
      rcases List.mem_cons.1 member with same | member
      · cases same
        exact ⟨_, List.mem_cons_self, rfl⟩
      · obtain ⟨line, inside, same⟩ := ih member
        exact ⟨line, List.mem_cons_of_mem _ inside, same⟩
    | close n' =>
      rcases List.mem_cons.1 member with same | member
      · cases same
      · obtain ⟨line, inside, same⟩ := ih member
        cases rest with
        | nil => cases member
        | cons next later =>
          rw [ofPieces]
          split
          · exact ⟨line, inside, same⟩
          · exact ⟨line, List.mem_cons_of_mem _ inside, same⟩

end Lines

/-- A run of characters between delimiters or the ends of a text. -/
structure IsRun (before run after : List Char) : Prop where
  filled : run ≠ []
  whole : ∀ c ∈ run, isDelimiter c = false
  begins : before.getLast?.all isDelimiter = true
  ends : after.head?.all isDelimiter = true

theorem kept_of_endsLine {file : String} {before run x y : List Char} {d : Char}
    (maximal : IsRun before run (x ++ d :: y)) (outside : Mode.after before ≠ .comment)
    (ends : (Mode.after (before ++ run ++ x)).endsLine d = true)
    (visible : Text.trimChars run ≠ [])
    (sound : ((lexemes (before ++ (run ++ (x ++ d :: y)))).foldl (Scan.step file) {}).fault =
      none) :
    ((lexemes (before ++ (run ++ (x ++ d :: y)))).foldl (Scan.step file) {}).Kept
      (Text.trimChars run) := by
  have delimits : isDelimiter d = true := by
    revert ends
    cases Mode.after (before ++ run ++ x) with
    | plain =>
      intro ends
      simp only [Mode.endsLine, Bool.or_eq_true, beq_iff_eq] at ends
      rcases ends with (rfl | rfl) | rfl <;> rfl
    | comment =>
      intro ends
      rw [beq_iff_eq.1 ends]
      rfl
    | quoted escaped =>
      intro ends
      cases ends
  have cut : lexemes (before ++ (run ++ (x ++ d :: y))) =
      lexemes before ++ run :: (lexemes x ++ [d] :: lexemes y) := by
    have inner : lexemes (run ++ (x ++ d :: y)) = run :: lexemes (x ++ d :: y) := by
      cases x with
      | nil =>
        rw [List.nil_append, lexemes_before delimits, lexemes_run maximal.filled maximal.whole]
        rfl
      | cons e es =>
        have head : isDelimiter e = true := by simpa using maximal.ends
        rw [List.cons_append, lexemes_before head, lexemes_run maximal.filled maximal.whole]
        rfl
    have last : lexemes (d :: y) = [d] :: lexemes y := attach_delimiter delimits _
    rw [lexemes_past maximal.begins, inner, lexemes_before delimits, last]
  rw [cut, List.foldl_append, List.foldl_cons, List.foldl_append, List.foldl_cons] at sound ⊢
  generalize scanned : (lexemes before).foldl (Scan.step file) {} = s at sound ⊢
  have sound₃ := Scan.sound_of_steps sound
  have sound₂ := Scan.sound_of_step sound₃
  have sound₁ := Scan.sound_of_steps sound₂
  have sound₀ := Scan.sound_of_step sound₁
  have mode : s.mode = Mode.after before := by
    rw [← scanned] at sound₀ ⊢
    rw [Scan.mode_steps (isLexeme_of_mem before) sound₀, flatten_lexemes]
    rfl
  have mode' : ((lexemes x).foldl (Scan.step file) (s.step file run)).mode =
      Mode.after (before ++ run ++ x) := by
    rw [Scan.mode_steps (isLexeme_of_mem x) sound₂, flatten_lexemes,
      Scan.mode_step (.run maximal.filled maximal.whole) sound₁, mode, Mode.after, Mode.after,
      List.foldl_append, List.foldl_append]
  have taken := Scan.holds_run maximal.whole (mode ▸ outside) sound₁
  have held := taken.steps visible sound₂
  exact (held.ended visible sound₂ (mode' ▸ ends)).steps sound

/-- Every run of characters that is not in a comment comes through, without blanks at its ends,
unless the source ends inside of a string and with it the line of the run. -/
theorem source_text_is_kept (file source : String) (accepted : (tokenize file source).fault = none)
    (before run after : List Char) (split : source.toList = before ++ run ++ after)
    (maximal : IsRun before run after) (outside : Mode.after before ≠ .comment)
    (ended : (Mode.after source.toList).isQuoted = false ∨ ∃ x d y, after = x ++ d :: y ∧
      (Mode.after (before ++ run ++ x)).endsLine d = true)
    (visible : Text.trimChars run ≠ []) :
    ∃ line ∈ (tokenize file source).lines, ∃ token ∈ line.tokens,
      Text.trimChars run <:+: token.toList := by
  -- The line ends where it is said to, or at the line break that is put behind the source.
  have lineEnd : ∃ x d y, after ++ ['\n'] = x ++ d :: y ∧
      (Mode.after (before ++ run ++ x)).endsLine d = true := by
    rcases ended with closed | ⟨x, d, y, rfl, ends⟩
    · refine ⟨after, '\n', [], rfl, ?_⟩
      rw [← split]
      cases mode : Mode.after source.toList with
      | plain => rfl
      | comment => rfl
      | quoted escaped =>
        rw [mode] at closed
        cases closed
    · exact ⟨x, d, y ++ ['\n'], by simp, ends⟩
  obtain ⟨x, d, y, rest, ends⟩ := lineEnd
  have maximal' : IsRun before run (x ++ d :: y) := by
    rw [← rest]
    refine ⟨maximal.filled, maximal.whole, maximal.begins, ?_⟩
    cases after with
    | nil => rfl
    | cons e es => exact maximal.ends
  have whole : source.toList ++ ['\n'] = before ++ (run ++ (x ++ d :: y)) := by
    rw [split, ← rest, List.append_assoc, List.append_assoc]
  have sound : (scan file source.toList).fault = none := by
    rwa [tokenize, Lines.fault_ofPieces] at accepted
  have kept : (scan file source.toList).Kept (Text.trimChars run) := by
    rw [scan, whole] at sound ⊢
    exact kept_of_endsLine maximal' outside ends visible sound
  obtain ⟨tokens, n, member, token, inside, part⟩ := kept
  obtain ⟨line, listed, rfl⟩ :=
    @Lines.mem_ofPieces file tokens n _ (List.mem_reverse.2 member)
  refine ⟨line, ?_, token, inside, part⟩
  rw [tokenize, sound]
  exact listed

/-- A string over two lines with an escaped quote and what looks like a comment, and a string that
is never closed behind it. -/
def spanning : String := "DAT \"a; \\\"\nc\", 1 ; note\nDAT \"d"

theorem source_text_is_kept_spanning :
    (tokenize "spanning" spanning).lines.map Line.tokens = [["DAT", "\"a; \\\"\nc\"", "1"]] ∧
    ∃ line ∈ (tokenize "spanning" spanning).lines, ∃ token ∈ line.tokens,
      ['c'] <:+: token.toList := by
  have maximal : IsRun "DAT \"a; \\\"\n".toList ['c'] "\", 1 ; note\nDAT \"d".toList := by
    refine ⟨?_, ?_, ?_, ?_⟩ <;> decide
  have ended : (Mode.after ("DAT \"a; \\\"\n".toList ++ ['c'] ++
      "\", 1 ; note".toList)).endsLine '\n' = true := by
    decide
  have kept := source_text_is_kept "spanning" spanning (by decide +kernel) _ _ _ rfl maximal
    (by decide) (.inr ⟨_, _, "DAT \"d".toList, rfl, ended⟩) (by decide)
  exact ⟨by decide +kernel, kept⟩

def unclosed : String := "SET A, 1\nDAT \"abc\nSET B, 2\n"

-- The line of the open string and all that follows are dropped without a fault, and the rest is
-- assembled.
theorem open_string_is_dropped :
    IsRun "SET A, 1\nDAT \"".toList "abc".toList "\nSET B, 2\n".toList ∧
    Mode.after "SET A, 1\nDAT \"".toList = .quoted false ∧
    (tokenize "unclosed" unclosed).fault = none ∧
    (∀ line ∈ (tokenize "unclosed" unclosed).lines, ∀ token ∈ line.tokens,
      ¬ "abc".toList <:+: token.toList) ∧
    (assemble {} "unclosed" unclosed).outcome.toOption.map Program.words = some [0x8401] := by
  refine ⟨⟨?_, ?_, ?_, ?_⟩, ?_, ?_, ?_, ?_⟩ <;> decide +kernel

end Tokenizer

end WordAsm
