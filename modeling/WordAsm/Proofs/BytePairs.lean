import WordAsm.Proofs.ArgumentTexts
import WordAsm.Proofs.Latches

/-!
Byte data. Its items give a stream of bytes and of words that stay whole. Between the whole words
stand runs of bytes, and each run is put into words by itself, two bytes to a word with the high one
first; so a byte waits for its other half only as long as its run goes on. How many words there are
is seen from the kinds and lengths of the items.
-/
namespace WordAsm

inductive Portion where
  | byte (b : UInt8)
  /-- A word of a packed string. -/
  | word (w : UInt16)
  deriving DecidableEq, Repr

/-- Bytes in a row, and whole words, each with the bytes in a row behind it. -/
structure Runs where
  bytes : List UInt8 := []
  later : List (UInt16 × List UInt8) := []
  deriving DecidableEq, Repr

namespace Runs

def portions (r : Runs) : List Portion :=
  r.bytes.map .byte ++ r.later.flatMap fun run => .word run.1 :: run.2.map .byte

def words (r : Runs) : List UInt16 :=
  Word.ofBytes r.bytes ++ r.later.flatMap fun run => run.1 :: Word.ofBytes run.2

def cons : Portion → Runs → Runs
  | .byte b, r => { r with bytes := b :: r.bytes }
  | .word w, r => ⟨[], (w, r.bytes) :: r.later⟩

def ofPortions (portions : List Portion) : Runs := portions.foldr cons {}

theorem portions_cons (p : Portion) (r : Runs) : (cons p r).portions = p :: r.portions := by
  cases p <;> simp [cons, portions]

theorem portions_ofPortions (ps : List Portion) : (ofPortions ps).portions = ps := by
  induction ps with
  | nil => rfl
  | cons p ps ih => exact (portions_cons p _).trans (congrArg (p :: ·) ih)

end Runs

namespace Data

def portion (cell : Cell) : Portion :=
  if cell.isWhole then .word cell.value else .byte cell.value.toUInt8

theorem lowByte_eq (w : UInt16) : lowByte w = w.toUInt8.toUInt16 := by
  apply UInt16.toNat_inj.mp
  simp [lowByte]
  exact Nat.and_two_pow_sub_one_eq_mod w.toNat 8

theorem highHalf_eq (high : UInt8) : highHalf high.toUInt16 = Word.ofPair high 0 := by
  simp [highHalf, Word.ofPair]

theorem pairCells_eq (cells : List Cell) :
    pairCells none cells = (Runs.ofPortions (cells.map portion)).words ∧
      ∀ high : UInt8, pairCells (some high.toUInt16) cells =
        (Runs.cons (.byte high) (.ofPortions (cells.map portion))).words := by
  induction cells with
  | nil =>
    constructor
    · rfl
    · intro high
      simp [pairCells, highHalf_eq, Runs.ofPortions, Runs.cons, Runs.words, Word.ofBytes]
  | cons cell rest ih =>
    obtain ⟨even, odd⟩ := ih
    by_cases whole : cell.isWhole = true
    · have here : Runs.ofPortions ((cell :: rest).map portion) =
          Runs.cons (.word cell.value) (.ofPortions (rest.map portion)) := by
        simp [Runs.ofPortions, portion, whole]
      rw [here]
      constructor
      · simp [pairCells, whole, even, Runs.cons, Runs.words, Word.ofBytes]
      · intro high
        simp [pairCells, whole, even, highHalf_eq, Runs.cons, Runs.words, Word.ofBytes]
    · have here : Runs.ofPortions ((cell :: rest).map portion) =
          Runs.cons (.byte cell.value.toUInt8) (.ofPortions (rest.map portion)) := by
        simp [Runs.ofPortions, portion, whole]
      rw [here]
      constructor
      · simp only [pairCells, whole, Bool.false_eq_true, if_false, lowByte_eq, odd]
      · intro high
        have joined : highHalf high.toUInt16 ||| lowByte cell.value =
            Word.ofPair high cell.value.toUInt8 := by
          rw [lowByte_eq]
          rfl
        simp [pairCells, whole, joined, even, Runs.cons, Runs.words, Word.ofBytes]

end Data

namespace DataItem

variable {ctx : Context} {line : Line}

def IsNumeric (ctx : Context) (line : Line) : DataItem → Prop
  | string .. => True
  | value tree _ _ => ∃ n grouped, ctx.evaluate line tree = .ok (.number n grouped)

/-- What an item adds to byte data: the words of a packed string, the characters of another one and
the value of an expression, these two modulo 256. -/
inductive Adds (ctx : Context) (line : Line) : DataItem → List Portion → Prop
  | packed (words : List UInt16) (raw : String) :
      Adds ctx line (string words true raw) (words.map .word)
  | characters (words : List UInt16) (raw : String) :
      Adds ctx line (string words false raw) (words.map fun w => .byte (UInt8.ofNat w.toNat))
  | value {tree : Expr} {n : Int64} {grouped : Bool}
      (number : ctx.evaluate line tree = .ok (.number n grouped)) (last : Expr) (raw : String) :
      Adds ctx line (.value tree last raw) [.byte (UInt8.ofInt n.toInt)]

theorem portion_value (n : Int64) :
    Data.portion ⟨lowWord n, false⟩ = .byte (UInt8.ofInt n.toInt) := by
  have low : (lowWord n).toUInt8.toNat = n.toBitVec.toNat % 256 := by
    simp [lowWord]
    rfl
  have value : (UInt8.ofInt n.toInt).toNat = n.toBitVec.toNat % 256 := by
    simp [UInt8.ofInt, Int64.toInt, BitVec.toInt_eq_toNat_bmod, Int.bmod_def]
    split <;> omega
  exact congrArg Portion.byte (UInt8.toNat_inj.mp (low.trans value.symm))

theorem emit_numeric {item : DataItem} (numeric : item.IsNumeric ctx line) :
    ∃ cells left, item.emit ctx line = (.ok cells, left) ∧
      item.Adds ctx line (cells.map Data.portion) := by
  cases item with
  | string words isPacked raw =>
    refine ⟨_, _, rfl, ?_⟩
    cases isPacked with
    | true =>
      rw [List.map_map]
      exact .packed words raw
    | false =>
      rw [List.map_map]
      exact .characters words raw
  | value tree last raw =>
    obtain ⟨n, grouped, number⟩ := numeric
    refine ⟨[⟨lowWord n, false⟩], .value tree (.number n grouped) raw, ?_, ?_⟩
    · simp only [emit, number]
    · rw [List.map_singleton, portion_value]
      exact .value number last raw

theorem emitAll_numeric {items : List DataItem}
    (numeric : ∀ item ∈ items, item.IsNumeric ctx line) :
    ∃ cells parts, (emitAll ctx line items).1 = .ok cells ∧ items.Forall₂ (Adds ctx line) parts ∧
      parts.flatten = cells.map Data.portion := by
  induction items with
  | nil => exact ⟨[], [], rfl, .nil, rfl⟩
  | cons item rest ih =>
    obtain ⟨first, others⟩ := List.forall_mem_cons.1 numeric
    obtain ⟨cells, left, emitted, adds⟩ := emit_numeric first
    obtain ⟨more, parts, emitted', adds', same⟩ := ih others
    refine ⟨cells ++ more, cells.map Data.portion :: parts, ?_, .cons adds adds', ?_⟩
    · rcases later : emitAll ctx line rest with ⟨_ | own, rest'⟩
      · simp [later] at emitted'
      · simpa [emitAll, emitted, later] using emitted'
    · rw [List.flatten_cons, same, List.map_append]

def extent : DataItem → Bool × Nat
  | string words isPacked _ => (isPacked, words.length)
  | value .. => (false, 1)

theorem marks_eq (item : DataItem) : item.marks = List.replicate item.extent.2 item.extent.1 := by
  cases item with
  | string words isPacked raw => simp [marks, extent]
  | value tree last raw => rfl

end DataItem

namespace Data

inductive IsOn (line : Line) : Data → Prop
  | read {s : Symbols} {d : Data} (read : Data.read s line = .ok d) : IsOn line d
  | passed {d : Data} (before : IsOn line d) (ctx : Context) : IsOn line (d.emit ctx line).2

theorem isBytes_emit (ctx : Context) (line : Line) (d : Data) :
    (d.emit ctx line).2.isBytes = d.isBytes := by
  unfold emit
  split <;> rfl

theorem IsOn.isBytes_eq {line : Line} {d : Data} (on : d.IsOn line) :
    d.isBytes = Text.alike line.first ".DP" := by
  induction on with
  | read read =>
    obtain ⟨items, _, same⟩ := bind_ok read
    cases same
    rfl
  | passed before ctx ih => rw [isBytes_emit, ih]

theorem emit_numeric {ctx : Context} {line : Line} {d : Data} (bytes : d.isBytes = true)
    (numeric : ∀ item ∈ d.items, item.IsNumeric ctx line) :
    ∃ parts, d.items.Forall₂ (DataItem.Adds ctx line) parts ∧
      (d.emit ctx line).1 = .ok (some (Runs.ofPortions parts.flatten).words) := by
  obtain ⟨cells, parts, emitted, adds, same⟩ := DataItem.emitAll_numeric numeric
  refine ⟨parts, adds, ?_⟩
  rcases given : DataItem.emitAll ctx line d.items with ⟨_ | own, left⟩
  · simp [given] at emitted
  · obtain rfl : own = cells := by simpa [given] using emitted
    simp [emit, given, words, bytes, same, pairCells_eq]

end Data

/-- In a pass in which all of its expressions are numbers, a line of byte data gives the words of
its runs of bytes, each run filled up by itself, with the words of packed strings between them. How
many words a pass gives depends on which items are packed and on how long they are, and on nothing
that a label or the kind of pass could change. -/
theorem byte_data_is_paired {line : Line} {d : Data}
    (named : Text.alike line.first ".DP" = true) (on : d.IsOn line) :
    (∀ ctx : Context, (∀ item ∈ d.items, item.IsNumeric ctx line) →
      ∃ parts, ∃ runs : Runs, d.items.Forall₂ (DataItem.Adds ctx line) parts ∧
        parts.flatten = runs.portions ∧ (d.emit ctx line).1 = .ok (some runs.words)) ∧
    ∀ {line' : Line} {d' : Data}, Text.alike line'.first ".DP" = true → d'.IsOn line' →
      d'.items.map DataItem.extent = d.items.map DataItem.extent →
      ∀ (ctx ctx' : Context) {words words' : Option (List UInt16)},
        (d.emit ctx line).1 = .ok words → (d'.emit ctx' line').1 = .ok words' →
        ∃ given given', words = some given ∧ words' = some given' ∧
          given'.length = given.length := by
  have bytes : d.isBytes = true := on.isBytes_eq.trans named
  constructor
  · intro ctx numeric
    obtain ⟨parts, adds, emitted⟩ := Data.emit_numeric bytes numeric
    exact ⟨parts, _, adds, (Runs.portions_ofPortions _).symm, emitted⟩
  · intro line' d' named' on' extents ctx ctx' words words' emitted emitted'
    have bytes' : d'.isBytes = true := on'.isBytes_eq.trans named'
    have marked : d'.items.flatMap DataItem.marks = d.items.flatMap DataItem.marks := by
      have spread := congrArg
        (List.flatMap fun extent : Bool × Nat => List.replicate extent.2 extent.1) extents
      simpa only [List.flatMap_map, ← DataItem.marks_eq] using spread
    obtain ⟨cells, _, rfl⟩ := Data.emit_ok emitted
    obtain ⟨cells', _, rfl⟩ := Data.emit_ok emitted'
    exact ⟨_, _, rfl, rfl, Data.length_of_marks (bytes'.trans bytes.symm) marked emitted emitted'⟩

def mixedLine : Line where
  tokens := [".dp", "0x1FF", "k\"ABC\"", "\"xyz\"", "end"]
  file := "mixed"
  number := 1

def mixedData : Data where
  isBytes := true
  items := [
    .value (.number 0x1FF false) (.number 0x1FF false) "0x1FF",
    .string [0x4142, 0x4300] true "k\"ABC\"",
    .string [0x78, 0x79, 0x7A] false "\"xyz\"",
    .value (.leaf "end" false) (.leaf "end" false) "end"]

theorem read_mixedLine : Data.read {} mixedLine = .ok mixedData := by
  have number : Symbols.build {} mixedLine "0x1FF" = .ok (.number 0x1FF false) :=
    Symbols.build_numeral {} mixedLine ⟨by decide, by decide⟩ (by decide)
  have label : Symbols.build {} mixedLine "end" = .ok (.leaf "end" false) := by
    rw [Symbols.build, Symbols.parse_plain ⟨by decide, by decide⟩]
    rfl
  have first : DataItem.read {} mixedLine "0x1FF" =
      .ok (.value (.number 0x1FF false) (.number 0x1FF false) "0x1FF") := by
    rw [DataItem.read, if_neg (by decide), number]
  have packed : DataItem.read {} mixedLine "k\"ABC\"" =
      .ok (.string [0x4142, 0x4300] true "k\"ABC\"") := by
    exact ok_of_toOption (by decide +kernel)
  have second : DataItem.read {} mixedLine "\"xyz\"" =
      .ok (.string [0x78, 0x79, 0x7A] false "\"xyz\"") := by
    exact ok_of_toOption (by decide +kernel)
  have last : DataItem.read {} mixedLine "end" =
      .ok (.value (.leaf "end" false) (.leaf "end" false) "end") := by
    rw [DataItem.read, if_neg (by decide), label]
  have items : DataItem.readAll {} mixedLine mixedLine.operands = .ok mixedData.items := by
    simp only [mixedLine, Line.operands, List.tail_cons, DataItem.readAll] at *
    rw [first, packed, second, last]
    rfl
  rw [Data.read, items]
  have bytes : Text.alike mixedLine.first ".DP" = true := by decide +kernel
  rw [bytes]
  rfl

-- The label has the value 0x1203 in the second pass, and none in the first.
theorem byte_data_is_paired_mixed :
    let first : Context := ⟨{}, fun _ => none, false⟩
    let labels := (∅ : Std.TreeMap String Label).insert "END" ⟨0, 0x1203⟩
    let second : Context := ⟨{ labels }, fun _ => some 0, true⟩
    (∃ parts, ∃ runs : Runs, mixedData.items.Forall₂ (DataItem.Adds second mixedLine) parts ∧
      parts.flatten = runs.portions ∧
      (mixedData.emit second mixedLine).1 = .ok (some runs.words)) ∧
    (mixedData.emit second mixedLine).1 = .ok (some [0xFF00, 0x4142, 0x4300, 0x7879, 0x7A03]) ∧
    ∀ words, (mixedData.emit first mixedLine).1 = .ok words →
      ∃ given, words = some given ∧ given.length = 5 := by
  intro first labels second
  have named : Text.alike mixedLine.first ".DP" = true := by decide +kernel
  have ended : second.evaluate mixedLine (.leaf "end" false) = .ok (.number 0x1203 false) := by
    exact ok_of_toOption (by decide +kernel)
  have emitted : (mixedData.emit second mixedLine).1 =
      .ok (some [0xFF00, 0x4142, 0x4300, 0x7879, 0x7A03]) := by
    exact ok_of_toOption (by decide +kernel)
  obtain ⟨paired, length⟩ := byte_data_is_paired named (.read read_mixedLine)
  constructor
  · apply paired
    intro item member
    simp only [mixedData, List.mem_cons, List.not_mem_nil, or_false] at member
    rcases member with rfl | rfl | rfl | rfl
    · exact ⟨_, _, rfl⟩
    · trivial
    · trivial
    · exact ⟨_, _, ended⟩
  constructor
  · exact emitted
  · intro words provisional
    obtain ⟨_, given, same, rfl, counted⟩ :=
      length named (.read read_mixedLine) rfl second first emitted provisional
    cases same
    exact ⟨given, rfl, counted⟩

end WordAsm
