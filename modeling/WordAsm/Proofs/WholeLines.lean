import WordAsm.Proofs.LineNumbers

/-!
Texts of whole lines. The lines of such a text do not depend on what stands before or after it,
except for their numbers, so that the lines of a source are those of the texts it is made of.
-/
namespace WordAsm

namespace Tokenizer

/-! Lexemes do not go past the end of a line. -/

theorem attach_append (c : Char) {first : List (List Char)} (later : List (List Char))
    (some : first ≠ []) : attach c (first ++ later) = attach c first ++ later := by
  cases first with
  | nil => exact absurd rfl some
  | cons lexeme rest =>
    cases lexeme with
    | nil => rfl
    | cons d ds =>
      simp only [List.cons_append, attach]
      split <;> rfl

theorem attach_ne_nil (c : Char) (lexemes : List (List Char)) : attach c lexemes ≠ [] := by
  unfold attach
  split
  · split <;> simp
  · simp

theorem foldr_attach (cs : List Char) {first : List (List Char)} (later : List (List Char))
    (some : first ≠ []) :
    cs.foldr attach (first ++ later) = cs.foldr attach first ++ later ∧
      cs.foldr attach first ≠ [] := by
  induction cs with
  | nil => exact ⟨rfl, some⟩
  | cons c cs ih =>
    simp only [List.foldr_cons, ih.1]
    exact ⟨attach_append c later ih.2, attach_ne_nil c _⟩

theorem attach_delimiter {d : Char} (delimits : isDelimiter d = true)
    (lexemes : List (List Char)) : attach d lexemes = [d] :: lexemes := by
  unfold attach
  split
  · rw [if_pos (by simp [delimits])]
  · rfl

theorem lexemes_run {cs : List Char} (filled : cs ≠ [])
    (whole : ∀ c ∈ cs, isDelimiter c = false) : lexemes cs = [cs] := by
  induction cs with
  | nil => exact absurd rfl filled
  | cons c cs ih =>
    have here := whole c List.mem_cons_self
    cases cs with
    | nil => rfl
    | cons e es =>
      have next := whole e (by simp)
      have later := ih (by simp) fun e member => whole e (List.mem_cons_of_mem c member)
      change attach c (lexemes (e :: es)) = _
      rw [later]
      simp [attach, here, next]

theorem lexemes_past {cs : List Char} (ended : cs.getLast?.all isDelimiter = true)
    (later : List Char) : lexemes (cs ++ later) = lexemes cs ++ lexemes later := by
  rcases List.eq_nil_or_concat cs with rfl | ⟨before, last, rfl⟩
  · rfl
  · have delimits : isDelimiter last = true := by simpa using ended
    simp only [List.concat_eq_append, lexemes, List.foldr_append, List.foldr_cons, List.foldr_nil,
      attach_delimiter delimits]
    exact (@foldr_attach before [[last]] _ (by simp)).1

theorem lexemes_before {d : Char} (delimits : isDelimiter d = true) (cs later : List Char) :
    lexemes (cs ++ d :: later) = lexemes cs ++ lexemes (d :: later) := by
  rcases List.eq_nil_or_concat cs with rfl | ⟨before, last, rfl⟩
  · rfl
  · have apart (rest : List (List Char)) :
        attach last ([d] :: rest) = [[last]] ++ [d] :: rest := by
      simp [attach, delimits]
    simp only [List.concat_eq_append, lexemes, List.foldr_append, List.foldr_cons, List.foldr_nil,
      attach_delimiter delimits, apart]
    exact (@foldr_attach before [[last]] _ (by simp)).1

theorem lexemes_append {cs : List Char} (ended : cs.getLast?.all (· == '\n') = true)
    (later : List Char) : lexemes (cs ++ later) = lexemes cs ++ lexemes later := by
  apply lexemes_past
  cases last : cs.getLast? with
  | none => rfl
  | some c =>
    obtain rfl : c = '\n' := by simpa [last] using ended
    rfl

theorem beq_delimiter {cs : List Char} (whole : ∀ c ∈ cs, isDelimiter c = false) {d : Char}
    (delimits : isDelimiter d = true) : (cs == [d]) = false := by
  rw [beq_eq_false_iff_ne]
  rintro rfl
  have other := whole d List.mem_cons_self
  rw [delimits] at other
  cases other

theorem foldl_step_faulty {s : Scan} (faulty : s.fault.isSome = true) (file : String)
    (lexemes : List (List Char)) : lexemes.foldl (Scan.step file) s = s := by
  induction lexemes with
  | nil => rfl
  | cons lexeme rest ih =>
    have here : s.step file lexeme = s := by
      rw [Scan.step, if_pos faulty]
    rw [List.foldl_cons, here, ih]

/-- What a run between delimiters does: it is a label, a part of a token or of a comment. -/
theorem Scan.step_run {cs : List Char} (whole : ∀ c ∈ cs, isDelimiter c = false) {s : Scan}
    (sound : s.fault = none) (file : String) :
    s.step file cs =
      match s.mode with
      | .plain => if Token.isLabelChars cs then s.label file s.number cs else s.push cs
      | .comment => s
      | .quoted _ => { s.push cs with mode := .quoted false } := by
  have ends {d : Char} (delimits : isDelimiter d = true) := beq_delimiter whole delimits
  have gap : isGap cs = false := by
    simp only [isGap, List.contains_cons, List.contains_nil, ends (d := ' ') rfl,
      ends (d := '\t') rfl, ends (d := '\r') rfl, ends (d := '\x0c') rfl, Bool.or_self]
  simp only [step, sound, ends (d := '\n') rfl, Option.isSome_none, Bool.false_eq_true, if_false]
  cases mode : s.mode with
  | plain =>
    simp only [Scan.plain, ends (d := '\n') rfl, ends (d := '\x7b') rfl, ends (d := '\x7d') rfl,
      ends (d := ',') rfl, gap, ends (d := ';') rfl, ends (d := '"') rfl, Bool.or_self,
      Bool.false_and, Bool.false_eq_true, if_false]
  | comment => rfl
  | quoted escaped =>
    have kept : (s.push cs).mode = .quoted escaped := mode
    cases escaped with
    | true => rfl
    | false =>
      simp only [Scan.quoted, ends (d := '\\') rfl, ends (d := '"') rfl, Bool.false_eq_true,
        if_false, ← kept]

def Piece.bare : Piece → Piece
  | .line tokens _ => .line tokens 0
  | .close _ => .close 0

def Piece.tokens? : Piece → Option (List String)
  | .line tokens _ => some tokens
  | .close _ => none

/-- The tokens of a text of whole lines, in which no brace closes a block. -/
def wholeLines? (text : String) : Option (List (List String)) :=
  let s := (lexemes text.toList).foldl (Scan.step "") {}
  if text.toList.getLast?.all (· == '\n') && s.mode == .plain && s.tokens.isEmpty &&
      s.current.isEmpty && s.fault.isNone then
    s.pieces.reverse.mapM Piece.tokens?
  else none

namespace Scan

/-- The second scan has come as far as the first one, after these pieces. -/
structure Follows (earlier : List Piece) (s s' : Scan) : Prop where
  mode : s'.mode = s.mode
  tokens : s'.tokens = s.tokens
  current : s'.current = s.current
  pieces : s'.pieces.map Piece.bare = s.pieces.map Piece.bare ++ earlier
  fault : s'.fault.isSome = s.fault.isSome

section

variable {earlier : List Piece} {s s' : Scan}

theorem Follows.pending (follows : Follows earlier s s') : s'.pending = s.pending := by
  simp only [Scan.pending, follows.current]

theorem Follows.finishToken (follows : Follows earlier s s') :
    Follows earlier s.finishToken s'.finishToken := by
  refine ⟨follows.mode, ?_, rfl, follows.pieces, follows.fault⟩
  simp only [Scan.finishToken, follows.pending, follows.tokens]

theorem Follows.flush (follows : Follows earlier s s') : Follows earlier s.flush s'.flush := by
  unfold Scan.flush
  rw [follows.pending]
  split
  · exact ⟨follows.mode, follows.tokens, rfl, follows.pieces, follows.fault⟩
  · exact follows.finishToken

theorem Follows.endLine (follows : Follows earlier s s') (n n' : Nat) :
    Follows earlier (s.endLine n) (s'.endLine n') := by
  have flushed := follows.flush
  simp only [Scan.endLine, flushed.tokens]
  split
  · exact ⟨rfl, rfl, flushed.current, flushed.pieces, flushed.fault⟩
  · refine ⟨rfl, rfl, flushed.current, ?_, flushed.fault⟩
    simp only [List.map_cons, List.cons_append, flushed.pieces, Piece.bare]

theorem Follows.close (follows : Follows earlier s s') (n n' : Nat) :
    Follows earlier (s.close n) (s'.close n') := by
  have ended := follows.endLine n n'
  refine ⟨ended.mode, ended.tokens, ended.current, ?_, ended.fault⟩
  simp only [Scan.close, List.map_cons, List.cons_append, ended.pieces, Piece.bare]

theorem Follows.label (follows : Follows earlier s s') (file file' : String) (n n' : Nat)
    (lexeme : List Char) :
    Follows earlier (s.label file n lexeme) (s'.label file' n' lexeme) := by
  have flushed := follows.flush
  simp only [Scan.label, flushed.tokens]
  split
  · refine ⟨flushed.mode, rfl, flushed.current, ?_, flushed.fault⟩
    simp only [List.map_cons, List.cons_append, flushed.pieces, Piece.bare]
  · exact ⟨flushed.mode, rfl, flushed.current, flushed.pieces, rfl⟩

theorem Follows.push (follows : Follows earlier s s') (lexeme : List Char) :
    Follows earlier (s.push lexeme) (s'.push lexeme) := by
  refine ⟨follows.mode, follows.tokens, ?_, follows.pieces, follows.fault⟩
  simp only [Scan.push, follows.current]

theorem Follows.in_mode (follows : Follows earlier s s') (mode : Mode) :
    Follows earlier { s with mode } { s' with mode } :=
  ⟨rfl, follows.tokens, follows.current, follows.pieces, follows.fault⟩

theorem Follows.numbered (follows : Follows earlier s s') (n n' : Nat) :
    Follows earlier { s with number := n } { s' with number := n' } :=
  ⟨follows.mode, follows.tokens, follows.current, follows.pieces, follows.fault⟩

theorem Follows.plain (follows : Follows earlier s s') (file file' : String) (n n' : Nat)
    (lexeme : List Char) :
    Follows earlier (s.plain file n lexeme) (s'.plain file' n' lexeme) := by
  unfold Scan.plain
  rw [follows.tokens, follows.pending]
  split
  · exact follows.endLine n n'
  · split
    · exact follows.close n n'
    · split
      · exact follows.label file file' n n' lexeme
      · split
        · exact follows.finishToken
        · split
          · exact ⟨rfl, rfl, follows.current, follows.pieces, follows.fault⟩
          · split
            · exact (follows.push lexeme).in_mode (.quoted false)
            · exact follows.push lexeme

theorem Follows.quoted (follows : Follows earlier s s') (escaped : Bool) (lexeme : List Char) :
    Follows earlier (s.quoted escaped lexeme) (s'.quoted escaped lexeme) := by
  have pushed := follows.push lexeme
  unfold Scan.quoted
  dsimp only
  split
  · exact pushed.in_mode _
  · split
    · exact pushed.in_mode _
    · split
      · exact pushed.in_mode _
      · exact pushed

theorem Follows.step (follows : Follows earlier s s') (file file' : String) (lexeme : List Char) :
    Follows earlier (s.step file lexeme) (s'.step file' lexeme) := by
  unfold Scan.step
  rw [follows.fault]
  split
  · exact follows
  · dsimp only
    generalize given : (if lexeme == ['\n'] then { s with number := s.number + 1 } else s) = a
    generalize given' : (if lexeme == ['\n'] then { s' with number := s'.number + 1 } else s') = b
    have both : Follows earlier a b := by
      rw [← given, ← given']
      split
      · exact follows.numbered _ _
      · exact follows
    rw [both.mode]
    split
    · exact both.plain file file' _ _ lexeme
    · split
      · exact both.endLine _ _
      · exact both
    · exact both.quoted _ lexeme

theorem Follows.steps (follows : Follows earlier s s') (file file' : String)
    (lexemes : List (List Char)) :
    Follows earlier (lexemes.foldl (Scan.step file) s) (lexemes.foldl (Scan.step file') s') := by
  induction lexemes generalizing s s' with
  | nil => exact follows
  | cons lexeme rest ih => exact ih (follows.step file file' lexeme)

end

end Scan

/-- A line of a file, without a number. -/
def lineOf (file : String) (tokens : List String) : Line := ⟨tokens, "", [], file, 0⟩

theorem isContinuation_bare (p : Piece) :
    Lines.isContinuation p.bare = Lines.isContinuation p := by
  cases p with
  | line tokens n => cases tokens <;> rfl
  | close n => rfl

theorem ofPieces_bare (file : String) (fault : Option Fault) (pieces : List Piece) :
    let bare := Lines.ofPieces file (fault.map fun _ => .tooManyEnds) (pieces.map Piece.bare)
    (Lines.ofPieces file fault pieces).lines.map Line.bare = bare.lines ∧
      (Lines.ofPieces file fault pieces).fault.map (fun _ => Fault.tooManyEnds) = bare.fault := by
  induction pieces with
  | nil => exact ⟨rfl, rfl⟩
  | cons p rest ih =>
    cases p with
    | line tokens n =>
      simp only [Lines.ofPieces, List.map_cons, Piece.bare, Lines.cons, ← ih.1, ← ih.2]
      exact ⟨rfl, trivial⟩
    | close n =>
      cases rest with
      | nil =>
        simp only [Lines.ofPieces, List.map_cons, List.map_nil, Piece.bare, Option.isSome_map]
        split
        · exact ⟨rfl, rfl⟩
        · exact ⟨rfl, rfl⟩
      | cons next later =>
        have opened (fault : Option Fault) (n : Nat) (next : Piece) (later : List Piece) :
            Lines.ofPieces file fault (.close n :: next :: later) =
              if Lines.isContinuation next then Lines.ofPieces file fault (next :: later)
              else Lines.cons ⟨[".end"], "", [], file, n⟩
                (Lines.ofPieces file fault (next :: later)) := rfl
        rw [List.map_cons, List.map_cons, Piece.bare, opened, opened, isContinuation_bare]
        split
        · exact ih
        · refine ⟨?_, ih.2⟩
          simp only [Lines.cons, List.map_cons, ih.1]
          rfl

theorem ofPieces_append (file : String) (fault : Option Fault) {pieces : List Piece}
    {lines : List (List String)} (whole : pieces.mapM Piece.tokens? = some lines)
    (later : List Piece) :
    (Lines.ofPieces file fault (pieces.map Piece.bare ++ later)).lines =
        lines.map (lineOf file) ++ (Lines.ofPieces file fault later).lines ∧
      (Lines.ofPieces file fault (pieces.map Piece.bare ++ later)).fault =
        (Lines.ofPieces file fault later).fault := by
  induction pieces generalizing lines with
  | nil =>
    cases whole
    exact ⟨rfl, rfl⟩
  | cons p rest ih =>
    rw [List.mapM_cons] at whole
    cases p with
    | close n => cases whole
    | line tokens n =>
      obtain ⟨_, same, whole⟩ := Option.bind_eq_some_iff.1 whole
      cases same
      obtain ⟨others, found, same⟩ := Option.bind_eq_some_iff.1 whole
      cases same
      obtain ⟨front, end_⟩ := ih found
      refine ⟨?_, end_⟩
      simp only [List.map_cons, List.cons_append, Piece.bare, Lines.ofPieces, Lines.cons, front]
      rfl

theorem tokenize_append {text : String} {lines : List (List String)}
    (whole : wholeLines? text = some lines) (file rest : String) :
    (tokenize file (text ++ rest)).lines.map Line.bare =
        lines.map (lineOf file) ++ (tokenize file rest).lines.map Line.bare ∧
      (tokenize file (text ++ rest)).fault.map (fun _ => Fault.tooManyEnds) =
        (tokenize file rest).fault.map fun _ => Fault.tooManyEnds := by
  unfold wholeLines? at whole
  dsimp only at whole
  split at whole
  · rename_i complete
    simp only [Bool.and_eq_true, beq_iff_eq, List.isEmpty_iff, Option.isNone_iff_eq_none]
      at complete
    obtain ⟨⟨⟨⟨ended, mode⟩, tokens⟩, current⟩, fault⟩ := complete
    -- What has been scanned of the text, under either name of the file.
    generalize scanned : (lexemes text.toList).foldl (Scan.step "") {} = s
      at whole mode tokens current fault
    generalize scanned' : (lexemes text.toList).foldl (Scan.step file) {} = s'
    have start : Scan.Follows [] {} {} := ⟨rfl, rfl, rfl, rfl, rfl⟩
    have both := start.steps "" file (lexemes text.toList)
    rw [scanned, scanned'] at both
    have after : Scan.Follows (s'.pieces.map Piece.bare) {} s' := by
      refine ⟨both.mode.trans mode, both.tokens.trans tokens, both.current.trans current, rfl, ?_⟩
      rw [both.fault, fault]
    have follows := after.steps file file (lexemes (rest.toList ++ ['\n']))
    have source : scan file (text ++ rest).toList =
        (lexemes (rest.toList ++ ['\n'])).foldl (Scan.step file) s' := by
      rw [scan, String.toList_append, List.append_assoc, lexemes_append ended, List.foldl_append,
        scanned']
    rw [← source] at follows
    change Scan.Follows _ (scan file rest.toList) _ at follows
    have reversed : (scan file (text ++ rest).toList).pieces.reverse.map Piece.bare =
        s.pieces.reverse.map Piece.bare ++
          (scan file rest.toList).pieces.reverse.map Piece.bare := by
      rw [List.map_reverse, follows.pieces, List.reverse_append, both.pieces, List.append_nil,
        List.map_reverse, List.map_reverse]
    have faulty : (scan file (text ++ rest).toList).fault.map (fun _ => Fault.tooManyEnds) =
        (scan file rest.toList).fault.map fun _ => Fault.tooManyEnds := by
      have both := follows.fault
      revert both
      cases (scan file (text ++ rest).toList).fault <;> cases (scan file rest.toList).fault <;>
        simp
    obtain ⟨all, last⟩ := ofPieces_bare file (scan file (text ++ rest).toList).fault
      (scan file (text ++ rest).toList).pieces.reverse
    obtain ⟨all', last'⟩ := ofPieces_bare file (scan file rest.toList).fault
      (scan file rest.toList).pieces.reverse
    obtain ⟨front, end_⟩ := ofPieces_append file
      ((scan file rest.toList).fault.map fun _ => Fault.tooManyEnds) whole
      ((scan file rest.toList).pieces.reverse.map Piece.bare)
    rw [reversed, faulty] at all last
    refine ⟨?_, ?_⟩
    · exact all.trans (front.trans (congrArg _ all'.symm))
    · exact last.trans (end_.trans last'.symm)
  · cases whole

end Tokenizer

end WordAsm
