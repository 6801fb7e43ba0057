import WordAsm.Proofs.ScanSteps

/-!
Where lines end and which numbers they have. Lines are ended by line breaks, braces and labels, as
long as these are not in comments or strings; line breaks are counted everywhere. So the number of a
line is that of the line breaks before the lexeme that ended it, and one, although closing braces
become lines only after the line behind them has been looked at.
-/
namespace WordAsm.Tokenizer

structure Ending where
  before : List (List Char)
  lexeme : List Char
  tokens : Option (List String)
  deriving DecidableEq, Repr

namespace Ending

def number (e : Ending) : Nat := 1 + e.before.flatten.count '\n'

def piece (e : Ending) : Piece := .ofTokens e.number e.tokens

def line (file : String) (e : Ending) : Line := ⟨e.tokens.getD [".end"], "", [], file, e.number⟩

end Ending

def endingsAt (file : String) (before : List (List Char)) (lexeme : List Char) : List Ending :=
  let s := before.foldl (Scan.step file) {}
  if s.fault.isSome then []
  else (ended (Mode.after before.flatten) s.flush.tokens.reverse lexeme).map (⟨before, lexeme, ·⟩)

def endingsFrom (file : String) (before : List (List Char)) : List (List Char) → List Ending
  | [] => []
  | lexeme :: rest => endingsAt file before lexeme ++ endingsFrom file (before ++ [lexeme]) rest

def endings (file source : String) : List Ending :=
  endingsFrom file [] (lexemes (source.toList ++ ['\n']))

def returned (faulty : Bool) : List Ending → List Ending
  | [] => []
  | e :: rest =>
    if e.tokens.isNone && rest.head?.elim faulty fun next => Lines.isContinuation next.piece then
      returned faulty rest
    else e :: returned faulty rest

theorem lines_ofPieces (file : String) (fault : Option Fault) (endings : List Ending) :
    (Lines.ofPieces file fault (endings.map Ending.piece)).lines =
      (returned fault.isSome endings).map (Ending.line file) := by
  induction endings with
  | nil => rfl
  | cons e rest ih =>
    obtain ⟨before, lexeme, _ | tokens⟩ := e
    · cases rest with
      | nil => cases fault <;> rfl
      | cons next later =>
        have opened : Lines.ofPieces file fault ((⟨before, lexeme, none⟩ :: next :: later).map
            Ending.piece) =
            if Lines.isContinuation next.piece then
              Lines.ofPieces file fault ((next :: later).map Ending.piece)
            else Lines.cons (Ending.line file ⟨before, lexeme, none⟩)
              (Lines.ofPieces file fault ((next :: later).map Ending.piece)) := rfl
        rw [opened, returned]
        simp only [Option.isNone_none, Bool.true_and, List.head?_cons, Option.elim_some]
        split
        · exact ih
        · exact congrArg (Ending.line file ⟨before, lexeme, none⟩ :: ·) ih
    · simp only [returned, Option.isNone_some, Bool.false_and, Bool.false_eq_true, if_false,
        List.map_cons, ← ih]
      rfl

theorem pieces_endingsAt {file : String} {before : List (List Char)}
    (given : ∀ l ∈ before, IsLexeme l) (lexeme : List Char) :
    ((before ++ [lexeme]).foldl (Scan.step file) {}).pieces.reverse =
      (before.foldl (Scan.step file) {}).pieces.reverse ++
        (endingsAt file before lexeme).map Ending.piece := by
  rw [List.foldl_append, List.foldl_cons, List.foldl_nil, endingsAt]
  cases sound : (before.foldl (Scan.step file) {}).fault with
  | some fault =>
    have stays : (before.foldl (Scan.step file) {}).step file lexeme =
        before.foldl (Scan.step file) {} := by
      rw [Scan.step, if_pos (by simp [sound])]
    simp [stays]
  | none =>
    have number := Scan.number_steps given sound
    have mode := Scan.mode_steps given sound
    rw [Scan.pieces_of_step sound, number, mode, List.reverse_append, List.reverse_reverse]
    simp only [Option.isSome_none, Bool.false_eq_true, if_false, List.map_map]
    rfl

theorem pieces_endingsFrom {file : String} {before rest : List (List Char)}
    (given : ∀ l ∈ before ++ rest, IsLexeme l) :
    ((before ++ rest).foldl (Scan.step file) {}).pieces.reverse =
      (before.foldl (Scan.step file) {}).pieces.reverse ++
        (endingsFrom file before rest).map Ending.piece := by
  -- Over what is still to be read; the number and the mode come from all that has been read.
  induction rest generalizing before with
  | nil => simp [endingsFrom]
  | cons lexeme rest ih =>
    have first : ∀ l ∈ before, IsLexeme l := by
      intro l member
      exact given l (List.mem_append_left _ member)
    rw [List.append_cons] at given ⊢
    rw [ih given, pieces_endingsAt first, endingsFrom, List.map_append, List.append_assoc]

theorem pieces_endings (file source : String) :
    (scan file source.toList).pieces.reverse = (endings file source).map Ending.piece :=
  @pieces_endingsFrom file [] _ (isLexeme_of_mem (source.toList ++ ['\n']))

theorem stands_of_mem {file : String} {before rest : List (List Char)} {e : Ending}
    (member : e ∈ endingsFrom file before rest) :
    (∃ after, before ++ rest = e.before ++ e.lexeme :: after) ∧
      Ends (Mode.after e.before.flatten) e.lexeme e.tokens := by
  induction rest generalizing before with
  | nil => cases member
  | cons lexeme rest ih =>
    rw [endingsFrom] at member
    rcases List.mem_append.1 member with here | later
    · unfold endingsAt at here
      dsimp only at here
      split at here
      · cases here
      · obtain ⟨tokens, ends, rfl⟩ := List.mem_map.1 here
        exact ⟨⟨rest, rfl⟩, ends_of_ended ends⟩
    · rw [List.append_cons]
      exact ih later

/-- The lines of a source are what its endings give, in order, and each has the number of the line
breaks before the lexeme that ended it, and one: a line break or a brace behind the line, the brace
that closes a block, or the label that is the line. -/
theorem line_numbers_are_exact (file source : String) :
    (tokenize file source).lines.map (fun line => (line.tokens, line.number)) =
      (returned (tokenize file source).fault.isSome (endings file source)).map (fun e =>
        (e.tokens.getD [".end"], 1 + e.before.flatten.count '\n')) ∧
    ∀ e ∈ endings file source, Ends (Mode.after e.before.flatten) e.lexeme e.tokens ∧
      ∃ after, lexemes (source.toList ++ ['\n']) = e.before ++ e.lexeme :: after ∧
        source.toList ++ ['\n'] = e.before.flatten ++ (e.lexeme ++ after.flatten) := by
  constructor
  · rw [tokenize, pieces_endings, Lines.fault_ofPieces, lines_ofPieces, List.map_map]
    rfl
  · intro e member
    obtain ⟨⟨after, split⟩, ends⟩ := stands_of_mem member
    rw [List.nil_append] at split
    refine ⟨ends, after, split, ?_⟩
    rw [← flatten_lexemes (source.toList ++ ['\n']), split, List.flatten_append, List.flatten_cons]

/-- A string over two lines with an escaped quote and a brace, a brace in a comment, a label before
a statement, and a branch whose closing brace is followed by another branch. -/
def counted : String := "DAT \"\n\\\"\x7b\";\x7d\n.if 1\x7b\nl: RFI\x7d\n\n.else\x7b\n\x7d"

theorem line_numbers_are_exact_counted :
    (tokenize "counted" counted).lines.map (fun line => (line.tokens, line.number)) =
      [(["DAT", "\"\n\\\"\x7b\""], 2), ([".if", "1"], 3), (["l:"], 4), (["RFI"], 4), ([".else"], 6),
        ([".end"], 7)] ∧
    ∃ e ∈ endings "counted" counted, e.lexeme = ['\x7d'] ∧ e.tokens = none ∧ e.number = 4 ∧
      ∃ after, counted.toList ++ ['\n'] = e.before.flatten ++ (e.lexeme ++ after) := by
  obtain ⟨lines, stands⟩ := line_numbers_are_exact "counted" counted
  have found : (endings "counted" counted)[4]?.map (fun e => (e.lexeme, e.tokens, e.number)) =
      some (['\x7d'], none, 4) := by
    decide +kernel
  obtain ⟨e, at_, same⟩ := Option.map_eq_some_iff.1 found
  obtain ⟨lexeme, same⟩ := Prod.mk.inj same
  obtain ⟨tokens, number⟩ := Prod.mk.inj same
  have member := List.mem_of_getElem? at_
  obtain ⟨_, after, _, text⟩ := stands e member
  refine ⟨?_, e, member, lexeme, tokens, number, after.flatten, text⟩
  rw [lines]
  decide +kernel

end WordAsm.Tokenizer
