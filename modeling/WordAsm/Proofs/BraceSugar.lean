import WordAsm.Proofs.SourceCoverage
import WordAsm.Proofs.WrittenLines

/-!
Braces are another way to write line breaks and `.end`. A text is rid of them from left to right;
what it has instead of a closing brace depends on the line that comes next. Before the first brace
nothing changes, and after it the tokenizer begins anew, so that each brace can be looked at by
itself.
-/
namespace WordAsm.Tokenizer

def continues (cs : List Char) : Bool :=
  (scan "" cs).pieces.getLast?.any Lines.isContinuation

def withoutBrace (m : Mode) (c : Char) (rest : List Char) : List Char :=
  if m == .plain && c == '\x7b' then ['\n']
  else if m == .plain && c == '\x7d' then
    if continues rest then ['\n'] else '\n' :: ".end\n".toList
  else [c]

/-- The text with line breaks and `.end` lines instead of the braces outside of comments and
strings; `m` is where the text before it leads. -/
def withoutBraces (m : Mode) : List Char → List Char
  | [] => []
  | c :: rest => withoutBrace m c rest ++ withoutBraces (m.next c) rest

def IsUnclosed (m : Mode) (cs : List Char) : Prop :=
  ∀ before after, cs = before ++ '\x7d' :: after → before.foldl Mode.next m ≠ .plain

theorem IsUnclosed.cons {m : Mode} {c : Char} {cs : List Char}
    (other : ¬ (m = .plain ∧ c = '\x7d')) (later : IsUnclosed (m.next c) cs) :
    IsUnclosed m (c :: cs) := by
  intro before after split mode
  cases before with
  | nil =>
    simp only [List.nil_append, List.cons.injEq] at split
    exact other ⟨mode, split.1⟩
  | cons d before =>
    simp only [List.cons_append, List.cons.injEq] at split
    obtain ⟨rfl, split⟩ := split
    exact later before after split mode

theorem withoutBraces_cases (m : Mode) (cs : List Char) :
    withoutBraces m cs = cs ∨
      ∃ before c rest, cs = before ++ c :: rest ∧ (c = '\x7b' ∨ c = '\x7d') ∧
        before.foldl Mode.next m = .plain ∧ IsUnclosed m before ∧
        withoutBraces m cs =
          before ++ (withoutBrace .plain c rest ++ withoutBraces .plain rest) := by
  induction cs generalizing m with
  | nil => exact .inl rfl
  | cons c cs ih =>
    by_cases brace : m = .plain ∧ (c = '\x7b' ∨ c = '\x7d')
    · obtain ⟨rfl, either⟩ := brace
      have stays : Mode.plain.next c = .plain := by
        rcases either with rfl | rfl <;> rfl
      right
      refine ⟨[], c, cs, rfl, either, rfl, ?_, ?_⟩
      · intro before after split
        simp at split
      · rw [withoutBraces, stays]
        rfl
    · have unopened : ¬ (m = .plain ∧ c = '\x7b') := by
        intro opening
        exact brace ⟨opening.1, .inl opening.2⟩
      have unclosed : ¬ (m = .plain ∧ c = '\x7d') := by
        intro closing
        exact brace ⟨closing.1, .inr closing.2⟩
      have kept : withoutBrace m c cs = [c] := by simp [withoutBrace, unopened, unclosed]
      rw [withoutBraces, kept]
      rcases ih (m.next c) with same | ⟨before, d, rest, rfl, either, mode, before', same⟩
      · left
        rw [same]
        rfl
      · right
        refine ⟨c :: before, d, rest, rfl, either, mode, before'.cons unclosed, ?_⟩
        rw [same]
        rfl

theorem lexemes_withoutBrace {c : Char} (brace : c = '\x7b' ∨ c = '\x7d')
    (before rest later : List Char) :
    lexemes (before ++ (withoutBrace .plain c rest ++ later)) =
      lexemes before ++ (lexemes (withoutBrace .plain c rest) ++ lexemes later) := by
  have lines : ∃ more, withoutBrace .plain c rest = '\n' :: more ∧
      ('\n' :: more).getLast?.all (· == '\n') = true := by
    rcases brace with rfl | rfl
    · exact ⟨[], rfl, rfl⟩
    · by_cases goesOn : continues rest = true
      · exact ⟨[], by simp [withoutBrace, goesOn], rfl⟩
      · exact ⟨".end\n".toList, by simp [withoutBrace, goesOn], rfl⟩
  obtain ⟨more, text, ended⟩ := lines
  rw [text, List.cons_append, lexemes_before rfl, ← List.cons_append, lexemes_append ended]

namespace Scan

variable {s : Scan} {file : String}

theorem close_of_endLine {k n : Nat} (member : .close k ∈ (s.endLine n).pieces) :
    .close k ∈ s.pieces := by
  rw [pieces_of_endLine] at member
  rcases List.mem_append.1 member with added | found
  · split at added
    · cases added
    · cases List.mem_singleton.1 added
  · exact found

theorem close_of_step {k : Nat} {lexeme : List Char} (sound : s.fault = none)
    (member : .close k ∈ (s.step file lexeme).pieces) :
    .close k ∈ s.pieces ∨ s.mode = .plain ∧ lexeme = ['\x7d'] := by
  rw [pieces_of_step sound] at member
  rcases List.mem_append.1 member with added | found
  · obtain ⟨tokens, inside, same⟩ := List.mem_map.1 (List.mem_reverse.1 added)
    cases tokens with
    | some tokens => cases same
    | none =>
      cases ends_of_ended inside with
      | block outside => exact .inr ⟨outside, rfl⟩
  · exact .inl found

theorem close_of_steps {k : Nat} {lexemes : List (List Char)} (given : ∀ l ∈ lexemes, IsLexeme l)
    (sound : (lexemes.foldl (step file) s).fault = none)
    (member : .close k ∈ (lexemes.foldl (step file) s).pieces) :
    .close k ∈ s.pieces ∨ ∃ before after, lexemes = before ++ ['\x7d'] :: after ∧
      before.flatten.foldl Mode.next s.mode = .plain := by
  induction lexemes generalizing s with
  | nil => exact .inl member
  | cons lexeme rest ih =>
    obtain ⟨first, later⟩ := List.forall_mem_cons.1 given
    rw [List.foldl_cons] at sound member
    have here := sound_of_steps sound
    rcases ih later sound member with found | ⟨before, after, rfl, mode⟩
    · rcases close_of_step (sound_of_step here) found with found | ⟨mode, rfl⟩
      · exact .inl found
      · exact .inr ⟨[], rest, rfl, mode⟩
    · right
      refine ⟨lexeme :: before, after, rfl, ?_⟩
      rw [mode_step first here] at mode
      rwa [List.flatten_cons, List.foldl_append]

theorem isIdle_endLine (sound : s.fault = none) (n : Nat) : (s.endLine n).IsIdle := by
  have flushed : s.flush.current = [] ∧ s.flush.fault = none := by
    unfold flush
    split
    · exact ⟨rfl, sound⟩
    · exact ⟨rfl, sound⟩
  unfold endLine
  dsimp only
  split
  · rename_i empty
    exact ⟨rfl, List.isEmpty_iff.1 empty, flushed.1, flushed.2⟩
  · exact ⟨rfl, rfl, flushed.1, flushed.2⟩

theorem pieces_numbered (s : Scan) (k n : Nat) :
    ({ s with number := k }.endLine n).pieces = (s.endLine n).pieces := by
  rw [pieces_of_endLine, pieces_of_endLine, tokens_numbered]

section

variable (plain : s.mode = .plain) (sound : s.fault = none)

include plain sound

theorem step_open (file : String) : s.step file ['\x7b'] = s.endLine s.number :=
  step_plain plain sound (by decide) file

theorem step_close (file : String) : s.step file ['\x7d'] = s.close s.number :=
  step_plain plain sound (by decide) file

end

theorem IsIdle.step_end (idle : s.IsIdle) (file : String) :
    (lexemes ".end\n".toList).foldl (step file) s = s.addLine [".end"] := by
  have token : IsToken ".end".toList :=
    IsSolid.isToken ⟨by decide, by decide, by decide, by decide⟩
  have written := steps_operands idle.plain idle.sound (isBlank_of_empty idle.current)
    (by simp : [".end"] ≠ []) (by simpa using token) isBreak_newline file
  rw [String.intercalate_singleton] at written
  refine Eq.trans rfl (written.trans ?_)
  simp [Scan.addLine, idle.tokens, idle.current]

end Scan

def told : List Piece → List (List String)
  | [] => []
  | .line tokens _ :: rest => tokens :: told rest
  | .close _ :: rest =>
    if rest.head?.any Lines.isContinuation then told rest else [".end"] :: told rest

theorem tokens_ofPieces (file : String) (pieces : List Piece) :
    (Lines.ofPieces file none pieces).lines.map Line.tokens = told pieces := by
  induction pieces with
  | nil => rfl
  | cons p rest ih =>
    cases p with
    | line tokens n => simp [Lines.ofPieces, Lines.cons, told, ih]
    | close n =>
      cases rest with
      | nil => rfl
      | cons next later =>
        by_cases goesOn : Lines.isContinuation next = true
        · simpa [Lines.ofPieces, told, goesOn] using ih
        · simpa [Lines.ofPieces, Lines.cons, told, goesOn] using ih

theorem tokenize_told {file source : String} (sound : (scan file source.toList).fault = none) :
    (tokenize file source).fault = none ∧
      (tokenize file source).lines.map Line.tokens =
        told (scan file source.toList).pieces.reverse := by
  constructor
  · rw [tokenize, Lines.fault_ofPieces, sound]
  · rw [tokenize, sound, tokens_ofPieces]

theorem told_bare (pieces : List Piece) : told (pieces.map Piece.bare) = told pieces := by
  induction pieces with
  | nil => rfl
  | cons p rest ih =>
    cases p with
    | line tokens n => simp [told, Piece.bare, ih]
    | close n =>
      have next : (rest.map Piece.bare).head?.any Lines.isContinuation =
          rest.head?.any Lines.isContinuation := by
        cases rest with
        | nil => rfl
        | cons next later => exact isContinuation_bare next
      rw [List.map_cons, Piece.bare, told, told, ih, next]

theorem told_append {first : List Piece} (lines : ∀ k, .close k ∉ first) (later : List Piece) :
    told (first ++ later) = told first ++ told later := by
  induction first with
  | nil => rfl
  | cons p rest ih =>
    cases p with
    | close k => exact absurd List.mem_cons_self (lines k)
    | line tokens n =>
      have others : ∀ k, .close k ∉ rest := by
        intro k member
        exact lines k (List.mem_cons_of_mem _ member)
      simp [told, ih others]

theorem scan_of_idle {s : Scan} (idle : s.IsIdle) (file : String) (cs : List Char) :
    ((lexemes (cs ++ ['\n'])).foldl (Scan.step file) s).fault.isSome =
        (scan file cs).fault.isSome ∧
      told ((lexemes (cs ++ ['\n'])).foldl (Scan.step file) s).pieces.reverse =
        told (s.pieces.reverse ++ (scan file cs).pieces.reverse) := by
  have start : Scan.Follows (s.pieces.map Piece.bare) {} s :=
    ⟨idle.plain, idle.tokens, idle.current, rfl, by rw [idle.sound]⟩
  have follows := start.steps file file (lexemes (cs ++ ['\n']))
  constructor
  · exact follows.fault
  · rw [← told_bare, List.map_reverse, follows.pieces, ← told_bare (s.pieces.reverse ++ _)]
    simp [scan]

theorem continues_eq (file : String) (cs : List Char) :
    continues cs = (scan file cs).pieces.reverse.head?.any Lines.isContinuation := by
  have start : Scan.Follows [] {} {} := ⟨rfl, rfl, rfl, rfl, rfl⟩
  have follows := (start.steps "" file (lexemes (cs ++ ['\n']))).pieces
  have last : (scan file cs).pieces.getLast?.map Piece.bare =
      (scan "" cs).pieces.getLast?.map Piece.bare := by
    rw [← List.getLast?_map, ← List.getLast?_map]
    simpa [scan] using congrArg List.getLast? follows
  have bare (p : Option Piece) : p.any Lines.isContinuation =
      (p.map Piece.bare).any Lines.isContinuation := by
    cases p with
    | none => rfl
    | some p => exact (isContinuation_bare p).symm
  rw [continues, List.head?_reverse, bare, ← last, ← bare]

theorem steps_withoutBrace {s : Scan} (plain : s.mode = .plain) (sound : s.fault = none)
    (lines : ∀ k, .close k ∉ s.pieces) {c : Char} (brace : c = '\x7b' ∨ c = '\x7d')
    (file : String) (rest : List Char) :
    (s.step file [c]).IsIdle ∧
      ((lexemes (withoutBrace .plain c rest)).foldl (Scan.step file) s).IsIdle ∧
      ∀ later, told later = told (scan file rest).pieces.reverse →
        told (((lexemes (withoutBrace .plain c rest)).foldl (Scan.step file) s).pieces.reverse ++
          later) = told ((s.step file [c]).pieces.reverse ++ (scan file rest).pieces.reverse) := by
  have idle := Scan.isIdle_endLine sound s.number
  have numbered : Scan.fault { s with number := s.number + 1 } = none := sound
  have broken := Scan.isIdle_endLine numbered s.number
  have pieces := s.pieces_numbered (s.number + 1) s.number
  have ended : ∀ k, .close k ∉ (s.endLine s.number).pieces.reverse := by
    intro k member
    exact lines k (Scan.close_of_endLine (List.mem_reverse.1 member))
  rcases brace with rfl | rfl
  · have text : withoutBrace .plain '\x7b' rest = ['\n'] := rfl
    have steps : (lexemes ['\n']).foldl (Scan.step file) s =
        { s with number := s.number + 1 }.endLine s.number := Scan.step_break plain sound file
    rw [text, steps, Scan.step_open plain sound, pieces]
    refine ⟨idle, broken, ?_⟩
    intro later same
    rw [told_append ended, told_append ended, same]
  · have closed : (s.close s.number).pieces.reverse ++ (scan file rest).pieces.reverse =
        (s.endLine s.number).pieces.reverse ++
          .close s.number :: (scan file rest).pieces.reverse := by
      simp [Scan.close]
    rw [Scan.step_close plain sound, closed, told_append ended, told, ← continues_eq]
    refine ⟨⟨idle.plain, idle.tokens, idle.current, idle.sound⟩, ?_⟩
    by_cases goesOn : continues rest = true
    · have text : withoutBrace .plain '\x7d' rest = ['\n'] := by simp [withoutBrace, goesOn]
      have steps : (lexemes ['\n']).foldl (Scan.step file) s =
          { s with number := s.number + 1 }.endLine s.number := Scan.step_break plain sound file
      rw [text, steps, pieces, if_pos goesOn]
      refine ⟨broken, ?_⟩
      intro later same
      rw [told_append ended, same]
    · have text : withoutBrace .plain '\x7d' rest = '\n' :: ".end\n".toList := by
        simp [withoutBrace, goesOn]
      have steps : (lexemes ('\n' :: ".end\n".toList)).foldl (Scan.step file) s =
          ({ s with number := s.number + 1 }.endLine s.number).addLine [".end"] := by
        rw [lexemes_cons rfl, List.foldl_cons, Scan.step_break plain sound, broken.step_end]
      rw [text, steps, if_neg goesOn]
      refine ⟨broken.addLine _, ?_⟩
      intro later same
      simp only [Scan.addLine, pieces, List.reverse_cons, List.append_assoc, List.singleton_append]
      rw [told_append ended, told, same]

theorem told_withoutBraces (file : String) (cs : List Char) (sound : (scan file cs).fault = none) :
    (scan file (withoutBraces .plain cs)).fault = none ∧
      told (scan file (withoutBraces .plain cs)).pieces.reverse =
        told (scan file cs).pieces.reverse := by
  -- The induction is on the number of characters, since what follows the first brace is shorter.
  induction length : cs.length using Nat.strongRecOn generalizing cs with
  | ind n ih =>
    rcases withoutBraces_cases .plain cs with
      same | ⟨before, c, rest, rfl, brace, mode, lines, same⟩
    · rw [same]
      exact ⟨sound, rfl⟩
    have shorter : rest.length < n := by
      rw [← length, List.length_append, List.length_cons]
      omega
    have delimits : isDelimiter c = true := by
      rcases brace with rfl | rfl <;> rfl
    have source : scan file (before ++ c :: rest) =
        (lexemes (rest ++ ['\n'])).foldl (Scan.step file)
          (((lexemes before).foldl (Scan.step file) {}).step file [c]) := by
      rw [scan, List.append_assoc, List.cons_append, lexemes_before delimits, lexemes_cons delimits,
        List.foldl_append, List.foldl_cons]
    have instead : scan file (withoutBraces .plain (before ++ c :: rest)) =
        (lexemes (withoutBraces .plain rest ++ ['\n'])).foldl (Scan.step file)
          ((lexemes (withoutBrace .plain c rest)).foldl (Scan.step file)
            ((lexemes before).foldl (Scan.step file) {})) := by
      rw [scan, same, List.append_assoc, List.append_assoc, lexemes_withoutBrace brace,
        List.foldl_append, List.foldl_append]
    rw [source] at sound ⊢
    rw [instead]
    have first := Scan.sound_of_step (Scan.sound_of_steps sound)
    have plain : ((lexemes before).foldl (Scan.step file) {}).mode = .plain := by
      rw [Scan.mode_steps (isLexeme_of_mem before) first, flatten_lexemes]
      exact mode
    have unclosed : ∀ k, .close k ∉ ((lexemes before).foldl (Scan.step file) {}).pieces := by
      intro k member
      rcases Scan.close_of_steps (isLexeme_of_mem before) first member with
        none | ⟨x, y, cut, open_⟩
      · cases none
      · have text := flatten_lexemes before
        rw [cut, List.flatten_append, List.flatten_cons] at text
        exact lines x.flatten y.flatten text.symm open_
    generalize (lexemes before).foldl (Scan.step file) {} = s at *
    obtain ⟨idle, idle', alike⟩ := steps_withoutBrace plain first unclosed brace file rest
    obtain ⟨faults, pieces⟩ := scan_of_idle idle file rest
    obtain ⟨faults', pieces'⟩ := scan_of_idle idle' file (withoutBraces .plain rest)
    have accepted : (scan file rest).fault = none := by
      rw [sound] at faults
      simpa using faults.symm
    obtain ⟨accepted', told'⟩ := ih rest.length shorter rest accepted rfl
    constructor
    · rw [accepted'] at faults'
      simpa using faults'
    · rw [pieces', pieces]
      exact alike _ told'

/-- Every source that the tokenizer accepts has the same lines, but for their numbers, as the source
with line breaks instead of its opening braces and with line breaks and `.end` instead of its
closing ones, where a closing brace before a line that goes on with a conditional block is only a
line break. -/
theorem braces_are_sugar (file source : String) (accepted : (tokenize file source).fault = none) :
    (tokenize file (String.ofList (withoutBraces .plain source.toList))).fault = none ∧
      (tokenize file (String.ofList (withoutBraces .plain source.toList))).lines.map Line.tokens =
        (tokenize file source).lines.map Line.tokens := by
  have sound : (scan file source.toList).fault = none := by
    rwa [tokenize, Lines.fault_ofPieces] at accepted
  obtain ⟨sound', same⟩ := told_withoutBraces file source.toList sound
  rw [← @String.toList_ofList (withoutBraces .plain source.toList)] at sound' same
  obtain ⟨accepted', lines'⟩ := tokenize_told sound'
  constructor
  · exact accepted'
  · rw [lines', same, (tokenize_told sound).2]

/-- A conditional in a repetition, with a comment and a blank line before its second branch, and
braces in a comment and in a string. -/
def braced : String :=
  ".rep 2 \x7b .if x \x7b SET A, 1 \x7d ; \x7d\n\n.else \x7b :l DAT \"\x7b\x7d\" \x7d\x7d"

theorem braces_are_sugar_nested :
    withoutBraces .plain braced.toList =
      ".rep 2 \n .if x \n SET A, 1 \n ; \x7d\n\n.else \n :l DAT \"\x7b\x7d\" \n.end\n\n.end\n".toList ∧
    (tokenize "braced" braced).lines.map Line.tokens = [[".rep", "2"], [".if", "x"],
      ["SET", "A", "1"], [".else"], [":l"], ["DAT", "\"\x7b\x7d\""], [".end"], [".end"]] ∧
    (tokenize "braced" (String.ofList (withoutBraces .plain braced.toList))).lines.map
      Line.tokens = (tokenize "braced" braced).lines.map Line.tokens := by
  refine ⟨by decide +kernel, by decide +kernel, ?_⟩
  exact (braces_are_sugar "braced" braced (by decide +kernel)).2

end WordAsm.Tokenizer
