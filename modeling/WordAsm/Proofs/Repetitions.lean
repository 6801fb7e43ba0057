import Mathlib
import WordAsm.Proofs.ConditionalChains
import WordAsm.Proofs.SignedNumerals

/-!
Repetitions. The lines of a repetition are first skipped and captured, then read again from what
was captured, as often as its number says. Reading them again means the same as reading their text
in the file. Main statement: a source in which a text is repeated `n` times assembles to the same as
the source in which it is written `n` times.
-/
namespace WordAsm

namespace Frame

def ofRep (remaining : Nat) (captured : List Line) (global : String) : Frame :=
  { kind := .repetition, isActive := false, remaining, captured, global }

def ofReplay (remaining : Nat) (captured : List Line) (global : String) : Frame :=
  { kind := .repetition, isActive := true, remaining, captured, isReplaying := true, global }

theorem foldl_ofRep (remaining : Nat) (captured lines : List Line) (global outer : String) :
    lines.foldl (fun rest line => captureAll { line with global } rest)
        [.ofRep remaining captured global, .ofFile outer] =
      [.ofRep remaining ((lines.map fun line => { line with global }).reverse ++ captured) global,
        .ofFile outer] := by
  induction lines generalizing captured with
  | nil => rfl
  | cons line lines ih =>
    rw [List.foldl_cons, List.map_cons, List.reverse_cons, List.append_assoc]
    exact ih ({ line with global } :: captured)

end Frame

structure Repetition where
  head : Conditional.Head
  opens : head.name = "rep"
  directive : String
  operand : String
  tokens : head.tokens = [directive, operand]
  body : BalancedText
  closing : Conditional.Head
  closes : closing.name = "end"

namespace Repetition

def text (rep : Repetition) : String := rep.head.text ++ rep.body.text ++ rep.closing.text

def lines (rep : Repetition) : List (List String) :=
  rep.head.tokens :: rep.body.lines ++ [rep.closing.tokens]

def unrolled (rep : Repetition) (n : Nat) : String :=
  String.join (List.replicate n rep.body.text)

def unrolledLines (rep : Repetition) (n : Nat) : List (List String) :=
  (List.replicate n rep.body.lines).flatten

/-- How often the text is repeated after this work, in this namespace of local labels. -/
def value (rep : Repetition) (w : Work) (global file : String) : Except Fault Int64 :=
  w.symbols.literal ⟨rep.head.tokens, global, [], file, 0⟩ rep.operand

theorem begins (rep : Repetition) : Tokenizer.Begins rep.text rep.lines :=
  (rep.head.begins.append (Conditional.begins_body rep.body)).append rep.closing.begins

theorem begins_unrolled (rep : Repetition) (n : Nat) :
    Tokenizer.Begins (rep.unrolled n) (rep.unrolledLines n) := by
  induction n with
  | zero => exact Tokenizer.tokenize_append BalancedText.empty.whole
  | succ n ih =>
    rw [unrolled, unrolledLines, List.replicate_succ, List.replicate_succ, String.join_cons,
      List.flatten_cons]
    exact (Conditional.begins_body rep.body).append ih

theorem wholeLines_end : Tokenizer.wholeLines? ".end\n" = some [[".end"]] := by decide +kernel

theorem directive_end : Token.directive? ".end" = some "end" := by decide +kernel

def times (n : Int) (body : BalancedText) : Repetition where
  head :=
    { text := ".rep " ++ toString n ++ "\n"
      tokens := [".rep", toString n]
      name := "rep"
      whole := Tokenizer.wholeLines_rep (Tokenizer.isSolid_toString n)
      named := by
        rw [List.headD_cons]
        decide +kernel }
  opens := rfl
  directive := ".rep"
  operand := toString n
  tokens := rfl
  body := body
  closing := ⟨".end\n", [".end"], "end", wholeLines_end, directive_end⟩
  closes := rfl

end Repetition

namespace Placement

def replay (remaining : Nat) (captured body : List Line) (stale outer : String) (closing : Line)
    (later : List Line) (fault : Option Fault) : Placement where
  base f := { f with kind := .repetition, remaining, captured, isReplaying := true }
  below := [.ofFile outer]
  pending _ := later
  replays lines := [⟨1, body, lines.map (fun line => { line with global := stale }) ++ [closing]⟩]
  fault := fault
  active _ := rfl
  namespaced _ _ := rfl
  quiet _ _ := rfl
  outside _ replay member := by
    rw [List.mem_singleton.1 member]
    exact Nat.le_refl _
  reads _ _ := ⟨stale, .inr ⟨rfl, 1, body, _, [], rfl, rfl⟩⟩

end Placement

namespace Preprocess

open Conditional Tokenizer

def inRep (fault : Option Fault) (w : Work) (remaining : Nat) (captured : List Line)
    (global : String) (pending : List Line) : Preprocess :=
  ⟨w, [⟨"", pending, fault, .ofRep remaining captured global, [.ofFile global], [], none⟩]⟩

def inReplay (fault : Option Fault) (w : Work) (remaining : Nat) (captured body rest : List Line)
    (global outer : String) (later : List Line) : Preprocess :=
  ⟨w, [⟨"", later, fault, .ofReplay remaining captured global, [.ofFile outer], [⟨1, body, rest⟩],
    none⟩]⟩

section

variable {o : Options} {w : Work} {fault : Option Fault} {file global outer : String}
  {later : List Line} {remaining : Nat} {captured body rest : List Line}

theorem endsAlike_rep {rep : Repetition} {v : Int64} (value : rep.value w global file = .ok v) :
    EndsAlike o (inFile fault w global (lineOf file rep.head.tokens :: later))
      (inRep fault w v.toInt.toNat [] global later) := by
  refine endsAlike_head rep.head (by rw [rep.opens]; rfl) rfl fun last => ?_
  have operand : Line.operand ⟨rep.head.tokens, global, [], file, 0⟩ = .ok rep.operand := by
    rw [rep.tokens]
    rfl
  rw [rep.opens]
  simp only [Directive.apply, Directive.onReader, Directive.openRep, Frame.ofFile, operand]
  change ((w.symbols.literal ⟨rep.head.tokens, global, [], file, 0⟩ rep.operand >>= _) >>= _) = _
  unfold Repetition.value at value
  rw [value]
  rfl

theorem endsAlike_capture (text : BalancedText) :
    EndsAlike o (inRep fault w remaining [] global (text.lines.map (lineOf file) ++ later))
      (inRep fault w remaining
        ((text.lines.map (lineOf file)).map fun line => { line with global }).reverse global
        later) := by
  have skips : Reader.SkipsAbove [.ofRep remaining [] global, .ofFile global] global []
      ⟨"", text.lines.map (lineOf file) ++ later, fault, .ofRep remaining [] global,
        [.ofFile global], [], none⟩ :=
    ⟨⟨rfl, rfl⟩, rfl, [], rfl, by simp, rfl⟩
  obtain ⟨⟨file', _, _, _, _, _, last⟩, reaches, skips', rfl, rfl, -⟩ :=
    reaches_skipsAbove (o := o) (w := w) skips rfl (by rw [tokens_lineOf]; exact text.balanced)
  rw [Frame.foldl_ofRep, List.append_nil] at skips'
  obtain ⟨opened, frames, -, closed⟩ := skips'.frames
  obtain rfl := List.map_eq_nil_iff.1 closed
  obtain rfl := skips'.replays
  cases frames
  exact (endsAlike_of_reaches reaches).trans (endsAlike_reader o w _)

theorem endsAlike_close_never (closing : Head) (closes : closing.name = "end") :
    EndsAlike o (inRep fault w 0 captured global (lineOf file closing.tokens :: later))
      (inFile fault w global later) := by
  refine endsAlike_directive file ""
    ⟨"", later, fault, .ofRep 0 captured global, [.ofFile global], [], none⟩
    ⟨"", later, fault, .ofFile global, [], [], none⟩ closing rfl (by rw [closes]; rfl) rfl
    fun last => ?_
  rw [closes]
  rfl

theorem endsAlike_close_again (closing : Head) (closes : closing.name = "end") :
    let whole := ⟨closing.tokens, global, [], file, 0⟩ :: captured
    EndsAlike o (inRep fault w (remaining + 1) captured global
        (lineOf file closing.tokens :: later))
      (inReplay fault w remaining whole whole.reverse whole.reverse global global later) := by
  intro whole
  refine endsAlike_directive file ""
    ⟨"", later, fault, .ofRep (remaining + 1) captured global, [.ofFile global], [], none⟩
    ⟨"", later, fault, .ofReplay remaining whole global, [.ofFile global],
      [⟨1, whole.reverse, whole.reverse⟩], none⟩ closing rfl (by rw [closes]; rfl) rfl
        fun last => ?_
  rw [closes]
  rfl

theorem endsAlike_replay_last (closing : Head) (closes : closing.name = "end") (stale : String) :
    EndsAlike o (inReplay fault w 0 captured body [⟨closing.tokens, stale, [], file, 0⟩] global
        outer later)
      (inFile fault w global later) := by
  refine endsAlike_directive file stale
    ⟨"", later, fault, .ofReplay 0 captured global, [.ofFile outer], [⟨1, body, []⟩], none⟩
    ⟨"", later, fault, .ofFile global, [], [], none⟩ closing rfl (by rw [closes]; rfl) rfl
    fun last => ?_
  rw [closes]
  rfl

theorem endsAlike_replay_next (closing : Head) (closes : closing.name = "end") (stale : String) :
    EndsAlike o (inReplay fault w (remaining + 1) captured body
        [⟨closing.tokens, stale, [], file, 0⟩] global outer later)
      (inReplay fault w remaining captured body body global outer later) := by
  refine endsAlike_directive file stale
    ⟨"", later, fault, .ofReplay (remaining + 1) captured global, [.ofFile outer], [⟨1, body, []⟩],
      none⟩
    ⟨"", later, fault, .ofReplay remaining captured global, [.ofFile outer],
      [⟨1, body, body⟩], none⟩
    closing rfl (by rw [closes]; rfl) rfl fun last => ?_
  rw [closes]
  rfl

theorem endsAlike_round (text : BalancedText) {stale : String} {closing : Line}
    {pending following : List Line}
    (whole : pending =
      (text.lines.map (lineOf file)).map (fun line => { line with global := stale }) ++ [closing])
    (after : ∀ w global, EndsAlike o
      (inReplay fault w remaining captured body [closing] global outer later)
      (inFile fault w global following)) :
    EndsAlike o (inReplay fault w remaining captured body pending global outer later)
      (inFile fault w global (text.lines.map (lineOf file) ++ following)) := by
  subst whole
  exact endsAlike_text (.replay remaining captured body stale outer closing later fault)
    (Surroundings.placement ⟨none, following, fault⟩) text after

theorem endsAlike_replay (text : BalancedText) (closing : Head) (closes : closing.name = "end")
    (stale : String)
    (whole : body =
      (text.lines.map (lineOf file)).map (fun line => { line with global := stale }) ++
        [⟨closing.tokens, stale, [], file, 0⟩]) (remaining : Nat) :
    EndsAlike o (inReplay fault w remaining captured body body global outer later)
      (inFile fault w global
        ((List.replicate (remaining + 1) (text.lines.map (lineOf file))).flatten ++ later)) := by
  induction remaining generalizing w global with
  | zero =>
    rw [List.replicate_one, List.flatten_singleton]
    exact endsAlike_round text whole fun _ _ => endsAlike_replay_last closing closes stale
  | succ k ih =>
    rw [List.replicate_succ, List.flatten_cons, List.append_assoc]
    exact endsAlike_round text whole fun _ _ =>
      (endsAlike_replay_next closing closes stale).trans ih

theorem endsAlike_repetition {rep : Repetition} {v : Int64}
    (value : rep.value w global file = .ok v) :
    EndsAlike o (inFile fault w global (rep.lines.map (lineOf file) ++ later))
      (inFile fault w global ((rep.unrolledLines v.toInt.toNat).map (lineOf file) ++ later)) := by
  have lines : rep.lines.map (lineOf file) ++ later = lineOf file rep.head.tokens ::
      (rep.body.lines.map (lineOf file) ++ (lineOf file rep.closing.tokens :: later)) := by
    simp [Repetition.lines]
  have unrolled (n : Nat) : (rep.unrolledLines n).map (lineOf file) =
      (List.replicate n (rep.body.lines.map (lineOf file))).flatten := by
    rw [Repetition.unrolledLines, List.map_flatten, List.map_replicate]
  rw [lines, unrolled]
  refine (endsAlike_rep value).trans ((endsAlike_capture rep.body).trans ?_)
  cases v.toInt.toNat with
  | zero => exact endsAlike_close_never rep.closing rep.closes
  | succ k =>
    refine (endsAlike_close_again rep.closing rep.closes).trans ?_
    refine endsAlike_replay rep.body rep.closing rep.closes global ?_ k
    rw [List.reverse_cons, List.reverse_reverse]

theorem endsAlike_leading (text : BalancedText) {later later' : List Line}
    (after : ∀ w global, EndsAlike o (inFile fault w global later) (inFile fault w global later')) :
    EndsAlike o (inFile fault w global (text.lines.map (lineOf file) ++ later))
      (inFile fault w global (text.lines.map (lineOf file) ++ later')) :=
  endsAlike_text (Surroundings.placement ⟨none, later, fault⟩)
    (Surroundings.placement ⟨none, later', fault⟩) text after

end

end Preprocess

namespace Tokenizer

def isRefused (text : String) : Bool :=
  text.toList.getLast?.all (· == '\n') &&
    ((lexemes text.toList).foldl (Scan.step "") {}).fault.isSome

theorem tokenize_refused {text : String} (refused : isRefused text = true)
    (file after after' : String) :
    tokenize file (text ++ after) = tokenize file (text ++ after') := by
  rw [isRefused, Bool.and_eq_true] at refused
  obtain ⟨ended, faulty⟩ := refused
  have start : Scan.Follows [] {} {} := ⟨rfl, rfl, rfl, rfl, rfl⟩
  have both := start.steps "" file (lexemes text.toList)
  rw [← both.fault] at faulty
  have stops (after : String) : scan file (text ++ after).toList =
      (lexemes text.toList).foldl (Scan.step file) {} := by
    rw [scan, String.toList_append, List.append_assoc, lexemes_append ended, List.foldl_append,
      foldl_step_faulty faulty]
  simp only [tokenize, stops]

end Tokenizer

/-- What may stand before a repetition: lines whose blocks match, unless they cannot be read to
their end. -/
inductive Preamble where
  | balanced (text : BalancedText)
  | refused (text : String) (refused : Tokenizer.isRefused text = true)

def Preamble.text : Preamble → String
  | balanced text => text.text
  | refused text _ => text

section

open Preprocess Tokenizer

theorem endsAlike_unrolled (o : Options) (file : String) (before : Preamble) {rep : Repetition}
    {n : Nat} (after : String)
    (counted : ∀ w global, ∃ v : Int64, rep.value w global file = .ok v ∧ v.toInt.toNat = n) :
    EndsAlike o (start file (before.text ++ rep.text ++ after))
      (start file (before.text ++ rep.unrolled n ++ after)) := by
  cases before with
  | refused text refused =>
    have same : start file (text ++ rep.text ++ after) =
        start file (text ++ rep.unrolled n ++ after) := by
      simp only [start, Reader.ofSource, String.append_assoc,
        tokenize_refused refused file (rep.text ++ after) (rep.unrolled n ++ after)]
    simp only [Preamble.text, same]
    exact endsAlike_of_reaches .refl
  | balanced text =>
    have repeated := alike_start ((Conditional.begins_body text).append rep.begins) file after
    have written := alike_start ((Conditional.begins_body text).append (rep.begins_unrolled n)) file
      after
    refine (repeated.endsAlike.trans ?_).trans written.endsAlike.symm
    rw [List.map_append, List.append_assoc, List.map_append, List.append_assoc]
    refine endsAlike_leading text ?_
    intro w global
    obtain ⟨v, value, rfl⟩ := counted w global
    exact endsAlike_repetition value

/-- With enough lines allowed, a source becomes these words and labels and shows this text. -/
def AssemblesTo (o : Options) (file source : String) (words : List UInt16)
    (labels : List (String × Int64)) (echo : String) : Prop :=
  ∃ limit program, (assemble { o with lineLimit := limit } file source).outcome = .ok program ∧
    program.words = words ∧ program.labels = labels ∧
    (assemble { o with lineLimit := limit } file source).echo = echo

theorem assemblesTo_iff {o : Options} {file source : String} {words : List UInt16}
    {labels : List (String × Int64)} {echo : String} :
    AssemblesTo o file source words labels echo ↔
      ∃ w, Finishes o (start file source) w ∧ Program.image? o w = some (words, labels) ∧
        String.join w.echo.reverse = echo := by
  constructor
  · rintro ⟨limit, program, outcome, rfl, rfl, rfl⟩
    cases read : preprocess { o with lineLimit := limit } file source with
    | mk w failure =>
      cases failure with
      | some failure =>
        rw [assemble, read] at outcome
        cases outcome
      | none =>
        have image := Program.image_of_assemble read
        rw [outcome] at image
        refine ⟨w, finishes_iff.2 ⟨limit, by rw [← preprocess_limit, read]⟩, image.symm, ?_⟩
        rw [assemble, read]
  · rintro ⟨w, finishes, image, rfl⟩
    obtain ⟨limit, ran⟩ := finishes_iff.1 finishes
    rw [← preprocess_limit] at ran
    have shown := (Program.image_of_assemble ran).trans image
    obtain ⟨program, outcome, same⟩ := Option.map_eq_some_iff.1 shown
    cases same
    refine ⟨limit, program, ok_of_toOption outcome, rfl, rfl, ?_⟩
    rw [assemble, ran]

theorem AssemblesTo.alike {o : Options} {file source source' : String} {words : List UInt16}
    {labels : List (String × Int64)} {echo : String}
    (same : EndsAlike o (start file source) (start file source'))
    (assembles : AssemblesTo o file source words labels echo) :
    AssemblesTo o file source' words labels echo := by
  obtain ⟨w, finishes, image, rfl⟩ := assemblesTo_iff.1 assembles
  obtain ⟨w', finishes', alike⟩ := same.left w finishes
  refine assemblesTo_iff.2 ⟨w', finishes', ?_, ?_⟩
  · rw [Program.image_alike alike, image]
  · rw [alike.echo]

/-- A repetition means its text written as often as it is repeated. -/
theorem repetition_means_unrolled (o : Options) (file : String) (before : Preamble) (n : Int)
    (bound : n.natAbs < 1 <<< 63) (body : BalancedText) (after : String) (words : List UInt16)
    (labels : List (String × Int64)) (echo : String) :
    AssemblesTo o file
        (before.text ++ (".rep " ++ toString n ++ "\n" ++ body.text ++ ".end\n") ++ after)
        words labels echo ↔
      AssemblesTo o file
        (before.text ++ String.join (List.replicate n.toNat body.text) ++ after)
        words labels echo := by
  have both : EndsAlike o
      (start file (before.text ++ (Repetition.times n body).text ++ after))
      (start file (before.text ++ (Repetition.times n body).unrolled n.toNat ++ after)) := by
    apply endsAlike_unrolled
    intro w global
    obtain ⟨v, value, same⟩ := w.symbols.literal_toString _ bound
    exact ⟨v, value, by rw [same]⟩
  exact ⟨.alike both, .alike both.symm⟩

def beforeRounds : BalancedText where
  text := ".macro m(x)\n:l DAT x,l\n.echo x\n.end\n"
  lines := [[".macro", "m(x)"], [":l"], ["DAT", "x", "l"], [".echo", "x"], [".end"]]
  whole := by decide +kernel
  balanced := by decide +kernel

def rounds : BalancedText where
  text := ".ifdef odd\nm(7)\n.else\n.def odd\n.rep 2\nm(odd)\n.end\n.end\n"
  lines := [[".ifdef", "odd"], ["m(7)"], [".else"], [".def", "odd"], [".rep", "2"], ["m(odd)"],
    [".end"], [".end"]]
  whole := by decide +kernel
  balanced := by decide +kernel

theorem repetition_means_unrolled_rounds :
    (2 : Int).natAbs < 1 <<< 63 ∧ ∃ labels, AssemblesTo {} "main"
      (beforeRounds.text ++ (".rep " ++ toString (2 : Int) ++ "\n" ++ rounds.text ++ ".end\n") ++
        "DAT 3\n")
      [1, 0, 1, 2, 7, 4, 3] labels "odd\nodd\n7\n" := by
  have bound : (2 : Int).natAbs < 1 <<< 63 := by decide
  have computed : (let report := assemble { lineLimit := 50 } "main" (beforeRounds.text ++
      String.join (List.replicate 2 rounds.text) ++ "DAT 3\n")
      (report.outcome.toOption.map Program.words, report.echo)) =
      (some [1, 0, 1, 2, 7, 4, 3], "odd\nodd\n7\n") := by
    decide +kernel
  obtain ⟨words, echo⟩ := Prod.mk.inj computed
  obtain ⟨program, outcome, same⟩ := Option.map_eq_some_iff.1 words
  refine ⟨bound, program.labels, ?_⟩
  apply (repetition_means_unrolled {} "main" (.balanced beforeRounds) 2 bound rounds
    "DAT 3\n" _ _ _).2
  exact ⟨50, program, ok_of_toOption outcome, same, rfl, echo⟩

def setOne : BalancedText where
  text := "SET A, 1\n"
  lines := [["SET", "A", "1"]]
  whole := by decide +kernel
  balanced := by decide +kernel

def Preprocess.Outcome.isFailed : Outcome → Bool
  | .failed .. => true
  | .more _ | .done _ => false

-- The digits of the least number do not fit without their sign, so that they are no number.
theorem least_repetition_fails :
    ¬(AssemblesTo {} "main"
        (BalancedText.empty.text ++
          (".rep " ++ toString (-9223372036854775808 : Int) ++ "\n" ++ setOne.text ++ ".end\n") ++
          "")
        [] [] "" ↔
      AssemblesTo {} "main"
        (BalancedText.empty.text ++
          String.join (List.replicate (-9223372036854775808 : Int).toNat setOne.text) ++ "")
        [] [] "") := by
  have nothing : AssemblesTo {} "main"
      (BalancedText.empty.text ++
        String.join (List.replicate (-9223372036854775808 : Int).toNat setOne.text) ++ "")
      [] [] "" := ⟨2, ⟨[], []⟩, by cbv, rfl, rfl, by cbv⟩
  have failed : (step {} (start "main" (BalancedText.empty.text ++
      (".rep " ++ toString (-9223372036854775808 : Int) ++ "\n" ++ setOne.text ++ ".end\n") ++
      ""))).isFailed = true := by
    decide +kernel
  intro both
  obtain ⟨w, finishes, -⟩ := assemblesTo_iff.1 (both.2 nothing)
  cases finishes with
  | done last =>
    rw [last] at failed
    cases failed
  | more first _ =>
    rw [first] at failed
    cases failed

end

end WordAsm
