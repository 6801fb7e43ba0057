import Mathlib.Data.List.Forall2
import WordAsm.Proofs.Blocks
import WordAsm.Proofs.DataTexts
import WordAsm.Proofs.LabelReferences
import WordAsm.Proofs.WrittenLines

/-!
Sources as lists of entries: labels, statements that give the same words in every pass, and calls
and jumps to labels. Reading such a source gives a statement for each entry that is no label, and
each label marks the statement after it.
-/
namespace WordAsm

namespace Statement

section

variable {s : Symbols} {line : Line}

theorem read_instruction {m : Mnemonic} (first : line.first = m.name) {i : Instruction}
    (read : Instruction.read s line = .ok i) :
    Statement.read s line = .ok ⟨line, .instruction i⟩ := by
  have body : Body.read s line = .ok (.instruction i) := by
    rw [Body.read, first]
    have upper : Text.upper m.name = m.name := by
      rcases m with op | op <;> cases op <;> decide +kernel
    rw [upper]
    rcases m with op | op <;> cases op <;>
      simp only [Mnemonic.name, BasicOp.name, SpecialOp.name, read] <;> rfl
  rw [Statement.read, body]
  rfl

theorem read_data {operands : List String} (tokens : line.tokens = "DAT" :: operands)
    {items : List DataItem} (read : DataItem.readAll s line operands = .ok items) :
    Statement.read s line = .ok ⟨line, .data ⟨false, items⟩⟩ := by
  have first := Line.first_of_tokens tokens
  have upper : Text.upper "DAT" = "DAT" := by decide +kernel
  have bytes : Text.alike "DAT" ".DP" = false := by decide +kernel
  have body : Body.read s line = .ok (.data ⟨false, items⟩) := by
    rw [Body.read, first, upper]
    simp only [Data.read, Line.operands_of_tokens tokens, read, first, bytes]
    rfl
  rw [Statement.read, body]
  rfl

end

def Gives (optimize : Bool) (words : List UInt16) (st : Statement) : Prop :=
  match st.body with
  | .instruction i =>
    optimize = false ∧ ∃ d, i.Shows d ∧ (∀ a ∈ d.arguments, a.isShortest = true) ∧ d.words = words
  | .data d => d.Gives words
  | _ => False

theorem emit_gives {optimize : Bool} {st : Statement} {words : List UInt16}
    (gives : st.Gives optimize words) (ctx : Context) (position : Int) (old : Option Nat) :
    (st.emit optimize ctx position old).outcome = .ok words ∧
      (st.emit optimize ctx position old).statement.Gives optimize words := by
  obtain ⟨line, body⟩ := st
  cases body with
  | instruction i =>
    obtain ⟨rfl, d, shown, shortest, rfl⟩ := gives
    obtain ⟨left, emitted, again⟩ := Instruction.emit_shows shown shortest ctx line position
    simp only [emit, emitted]
    exact ⟨rfl, rfl, d, again, shortest, rfl⟩
  | data d =>
    obtain ⟨left, emitted, again⟩ := Data.emit_gives gives ctx line
    simp only [emit, emitted]
    exact ⟨rfl, again⟩
  | fill f => cases gives
  | align a => cases gives

def Goes (kind : Transfer) (name : String) (latched : Bool) (st : Statement) : Prop :=
  st.line.scope = [] ∧ ∃ i, st.body = .instruction i ∧ i.Refers kind name latched

section

variable {kind : Transfer} {name : String} (named : IsName name)

include named

theorem read_goes {s : Symbols} {line : Line} (free : s.constant? name = none)
    (outside : line.scope = []) (tokens : line.tokens = kind.mnemonic :: kind.operands name) :
    ∃ st, Statement.read s line = .ok st ∧ st.Goes kind name false := by
  obtain ⟨i, read, refers⟩ := Instruction.read_refers named free tokens
  have first := Line.first_of_tokens tokens
  cases kind with
  | call => exact ⟨_, read_instruction (m := .special .jsr) first read, outside, i, rfl, refers⟩
  | jump => exact ⟨_, read_instruction (m := .basic .set) first read, outside, i, rfl, refers⟩

theorem find_goes {st : Statement} {latched : Bool} (goes : st.Goes kind name latched)
    (s : Symbols) : s.find? name st.line.global st.line.scope =
      s.labels[Text.upper name]?.map fun label => (Text.upper name, label) := by
  have bare : Scope.qualifiers [] = [] := rfl
  have key : Symbols.key name st.line.global = Text.upper name := by
    rw [Symbols.key, named.not_local]
    rfl
  rw [Symbols.find?, goes.1, bare, key]
  cases found : s.labels[Text.upper name]? <;> simp [found]

theorem emit_goes {st : Statement} {latched : Bool} (goes : st.Goes kind name latched)
    {ctx : Context} {index : Nat}
    (marked : ctx.symbols.labels[Text.upper name]? = some ⟨index, 0⟩)
    (known : ctx.finalize = true → (ctx.position index).isSome = true) (position : Int)
    (old : Option Nat) :
    (st.emit false ctx position old).outcome =
        .ok (kind.decoded (.ofPosition latched (ctx.position index))).words ∧
      (st.emit false ctx position old).statement.Goes kind name
        (latched ||
          (ctx.finalize && (Argument.ofPosition latched (ctx.position index)).isWord)) := by
  have found := find_goes named goes ctx.symbols
  rw [marked, Option.map_some] at found
  obtain ⟨line, body⟩ := st
  obtain ⟨outside, i, rfl, refers⟩ := goes
  have value : ctx.symbols.labelValue ctx.position ctx.finalize line name =
      .ok ((ctx.position index).map Int64.ofNat) := by
    simp only [Symbols.labelValue, found, Int.toNat_natCast]
    cases placed : ctx.position index with
    | some pos => simp
    | none =>
      rw [placed] at known
      cases final : ctx.finalize with
      | false => rfl
      | true => cases known final
  obtain ⟨left, emitted, again⟩ := Instruction.emit_refers named refers value known position
  simp only [emit, emitted]
  exact ⟨rfl, outside, left, rfl, again⟩

end

theorem latches_goes {kind : Transfer} {name : String} {latched : Bool} {st : Statement}
    (goes : st.Goes kind name latched) : st.latches = latched.toNat := by
  obtain ⟨-, i, body, refers⟩ := goes
  rw [latches, body]
  exact Instruction.latches_refers refers

end Statement

/-- A line of a source: a label, a statement that gives these words, or a call or jump to a
label. -/
inductive Entry where
  | label (name : String)
  | statement (first : String) (operands : List String) (words : List UInt16)
  | transfer (kind : Transfer) (name : String)

namespace Entry

def tokens : Entry → List String
  | label name => [":" ++ name]
  | statement first operands _ => first :: operands
  | transfer kind name => kind.mnemonic :: kind.operands name

def name? : Entry → Option String
  | label name => some name
  | _ => none

def words? : Entry → Option (List UInt16)
  | statement _ _ words => some words
  | _ => none

def isStatement : Entry → Bool
  | label _ => false
  | _ => true

def IsSteady (optimize : Bool) : Entry → Prop
  | label name => IsMark name
  | statement first operands words =>
    Text.IsPlain first.toList ∧ (Text.upper first = "DAT" ∨ operands.length ≤ 2) ∧
      ∀ (s : Symbols) (line : Line), line.tokens = first :: operands →
        ∃ st, Statement.read s line = .ok st ∧ st.Gives optimize words
  | transfer .. => False

def IsReadable (optimize : Bool) : Entry → Prop
  | transfer _ name => IsName name
  | e => e.IsSteady optimize

theorem IsSteady.isReadable {optimize : Bool} {e : Entry} (steady : e.IsSteady optimize) :
    e.IsReadable optimize := by
  cases e with
  | transfer kind name => exact steady.elim
  | _ => exact steady

def Reads (optimize : Bool) (e : Entry) (st : Statement) : Prop :=
  match e with
  | label _ => False
  | statement _ _ words => st.Gives optimize words
  | transfer kind name => st.Goes kind name false

/-- The labels among entries, with the index of the statement that each of them marks, where the
first statement has that index. -/
def marks (index : Nat) : List Entry → List (String × Nat)
  | [] => []
  | label name :: rest => (name, index) :: marks index rest
  | _ :: rest => marks (index + 1) rest

theorem fst_marks (index : Nat) (entries : List Entry) :
    (marks index entries).map Prod.fst = entries.filterMap name? := by
  induction entries generalizing index with
  | nil => rfl
  | cons e rest ih =>
    cases e with
    | label name => exact congrArg (name :: ·) (ih index)
    | _ => exact ih (index + 1)

theorem isPlain_dat : Text.IsPlain "DAT".toList := ⟨by decide, by decide⟩

theorem isSteady_data {operands : List String} {words : List UInt16}
    (read : ∀ (s : Symbols) (line : Line), ∃ items parts,
      DataItem.readAll s line operands = .ok items ∧
      items.mapM DataItem.constant? = some parts ∧ parts.flatten = words) (optimize : Bool) :
    IsSteady optimize (statement "DAT" operands words) := by
  have upper : Text.upper "DAT" = "DAT" := by decide +kernel
  refine ⟨isPlain_dat, .inl upper, ?_⟩
  intro s line tokens
  obtain ⟨items, parts, found, constant, whole⟩ := read s line
  exact ⟨_, Statement.read_data tokens found, rfl, parts, constant, whole⟩

theorem isSteady_literals (ws : List UInt16) (optimize : Bool) :
    IsSteady optimize (statement "DAT" (ws.map Word.literal) ws) := by
  refine isSteady_data ?_ optimize
  intro s line
  obtain ⟨items, read, constant⟩ := DataItem.readAll_literals s line ws
  refine ⟨items, _, read, constant, ?_⟩
  rw [← List.flatMap_def]
  exact List.flatMap_singleton' ws

end Entry

/-- The work with a label for the statement that comes next. -/
def Work.mark (w : Work) (key : String) : Work :=
  { w with
    symbols := { w.symbols with
      labels := w.symbols.labels.insert key ⟨w.statements.length, w.origin⟩ } }

namespace Reader

def flat (file : String) (pending : List Line) (global : String) (last : Option Line) : Reader :=
  { file, pending, fault := none, top := { kind := .bottom, isActive := true, global }, last }

section

variable {w : Work} {r : Reader} {line : Line}

theorem useLine_label {name : String} (mark : IsMark name) (tokens : line.tokens = [":" ++ name])
    (outside : line.scope = [])
    (constants : w.symbols.constants.contains (Text.upper name) = false)
    (labels : w.symbols.labels.contains (Text.upper name) = false) :
    r.useLine w line = .ok (w.mark (Text.upper name),
      { r with top := { r.top with global := Text.upper name ++ "::" } }) := by
  have chars : line.first.toList = ':' :: name.toList := by
    rw [Line.first_of_tokens tokens, String.toList_append]
    rfl
  have uncalled : line.first.toList.contains '(' = false := by
    simpa [chars] using mark.uncalled
  have isLabel : Token.isLabel line.first = true := by
    rw [Token.isLabel, chars]
    rfl
  have called : Token.labelName line.first = name := by
    have last : name.toList.getLast? ≠ some ':' := by
      intro last
      exact mark.unended (List.mem_of_getLast? last)
    simp only [Token.labelName, chars, List.head?_cons, beq_self_eq_true, if_true, List.drop_one,
      List.tail_cons, beq_iff_eq, last, if_false, String.ofList_toList]
  have key : Symbols.scopedKey line.scope.qualifier name r.top.global = Text.upper name := by
    have bare : Text.upper (Scope.qualifier []) = "" := rfl
    rw [Symbols.scopedKey, outside, bare, Symbols.key, mark.not_local, String.empty_append]
    rfl
  have added : w.addLabel line r.top.global =
      .ok (w.mark (Text.upper name), Text.upper name ++ "::") := by
    simp only [Work.addLabel, Symbols.addLabel, called, mark.usable, key, constants, labels,
      Symbols.globalAfter, mark.not_local, Bool.false_eq_true, if_false]
    rfl
  rw [useLine, uncalled, isLabel, added]
  rfl

theorem useLine_statement {first : String} {operands : List String} {st : Statement}
    (plain : Text.IsPlain first.toList) (short : Text.upper first = "DAT" ∨ operands.length ≤ 2)
    (tokens : line.tokens = first :: operands) (read : Statement.read w.symbols line = .ok st) :
    r.useLine w line = .ok ({ w with statements := st :: w.statements }, r) := by
  have named := Line.first_of_tokens tokens
  have uncalled : line.first.toList.contains '(' = false := by
    simpa [named] using plain.not_mem rfl
  have unlabelled : Token.isLabel line.first = false := by
    rw [named, Token.isLabel, Token.isLabelChars, Bool.or_eq_false_iff, beq_eq_false_iff_ne,
      beq_eq_false_iff_ne]
    constructor
    · intro head
      exact plain.not_mem rfl (List.mem_of_mem_head? head)
    · intro last
      exact plain.not_mem rfl (List.mem_of_getLast? last)
  have few : (Text.upper line.first != "DAT" && maxTokens < line.tokens.length) = false := by
    rw [named, tokens]
    rcases short with data | few
    · simp [data]
    · have bound : (first :: operands).length ≤ maxTokens := by
        simp only [maxTokens, List.length_cons]
        omega
      rw [decide_eq_false (Nat.not_lt.2 bound), Bool.and_false]
  have added : w.add line = .ok { w with statements := st :: w.statements } := by
    rw [Work.add, read]
    rfl
  rw [useLine, uncalled, unlabelled, few, added]
  rfl

end

end Reader

namespace Preprocess

theorem step_handled {o : Options} {w w' : Work} {file global : String} {line : Line}
    {rest : List Line} {last : Option Line} {readers : List Reader}
    (spelled : canonical { line with global } = { line with global })
    (handled : (Reader.flat file rest global (some { line with global })).handle o w
      { line with global } = .ok (w', readers)) :
    step o ⟨w, [.flat file (line :: rest) global last]⟩ = .more ⟨w', readers⟩ := by
  have line' : used (.flat file rest global last) line = { line with global } := spelled
  have shown : showing (.flat file rest global last) line =
      .flat file rest global (some { line with global }) := by
    rw [showing, line']
    rfl
  change readLine o w (.flat file rest global last) [] line = _
  rw [readLine_eq, line', shown, handled]
  simp only [List.append_nil]

theorem step_flat {o : Options} {w w' : Work} {file global : String} {line : Line}
    {rest : List Line} {last : Option Line} {r : Reader}
    (undirected : Token.directive? line.first = none)
    (taken : (Reader.flat file rest global (some { line with global })).useLine w
      { line with global } = .ok (w', r)) :
    step o ⟨w, [.flat file (line :: rest) global last]⟩ = .more ⟨w', [r]⟩ := by
  apply step_handled
  · unfold canonical
    split
    · rename_i first others tokens
      have same : line.first = first := by
        rw [Line.first]
        exact congrArg (·.headD "") tokens
      rw [← same, undirected]
    · rfl
  · have undirected' : Token.directive? (Line.first { line with global }) = none := undirected
    simp only [Reader.handle, undirected', taken]
    rfl

section

variable {o : Options} {w : Work} {file global : String} {rest : List Line} {last : Option Line}
  {number : Nat}

theorem step_label {name : String} (mark : IsMark name)
    (constants : w.symbols.constants.contains (Text.upper name) = false)
    (labels : w.symbols.labels.contains (Text.upper name) = false) :
    step o ⟨w, [.flat file (⟨[":" ++ name], "", [], file, number⟩ :: rest) global last]⟩ =
      .more ⟨w.mark (Text.upper name), [.flat file rest (Text.upper name ++ "::")
        (some ⟨[":" ++ name], global, [], file, number⟩)]⟩ := by
  refine step_flat ?_ (Reader.useLine_label mark rfl rfl constants labels)
  change Token.directive? (":" ++ name) = none
  rw [Token.directive?, String.toList_append]
  rfl

theorem step_statement {first : String} {operands : List String} {st : Statement}
    (plain : Text.IsPlain first.toList) (short : Text.upper first = "DAT" ∨ operands.length ≤ 2)
    (read : Statement.read w.symbols ⟨first :: operands, global, [], file, number⟩ = .ok st) :
    step o ⟨w, [.flat file (⟨first :: operands, "", [], file, number⟩ :: rest) global last]⟩ =
      .more ⟨{ w with statements := st :: w.statements },
        [.flat file rest global (some ⟨first :: operands, global, [], file, number⟩)]⟩ := by
  refine step_flat ?_ (Reader.useLine_statement plain short rfl read)
  change Token.directive? first = none
  unfold Token.directive?
  split
  · rename_i chars
    exact absurd (by simp [chars]) (plain.not_mem (c := '.') rfl)
  · rename_i chars
    exact absurd (by simp [chars]) (plain.not_mem (c := '#') rfl)
  · rfl

end

theorem run_end (o : Options) (w : Work) (file global : String) (last : Option Line) (n : Nat) :
    run o (n + 2) ⟨w, [.flat file [] global last]⟩ = (w, none) := rfl

end Preprocess

/-- The work after `w` has read entries: it has a statement for each entry that is no label, and
each label marks the statement after it. -/
structure Work.Takes (optimize : Bool) (w : Work) (entries : List Entry) (w' : Work) : Prop where
  statements : ∃ statements, w'.statements = statements.reverse ++ w.statements ∧
    List.Forall₂ (Entry.Reads optimize) (entries.filter Entry.isStatement) statements
  marked : ∀ mark ∈ Entry.marks w.statements.length entries,
    w'.symbols.labels[Text.upper mark.1]? = some ⟨mark.2, w.origin⟩
  others : ∀ key, key ∉ (entries.filterMap Entry.name?).map Text.upper →
    w'.symbols.labels[key]? = w.symbols.labels[key]?

namespace Work.Takes

variable {optimize : Bool} {w w' : Work} {entries : List Entry}

theorem nil (optimize : Bool) (w : Work) : w.Takes optimize [] w :=
  ⟨⟨[], rfl, .nil⟩, by simp [Entry.marks], fun _ _ => rfl⟩

theorem label {name : String}
    (distinct : Text.upper name ∉ (entries.filterMap Entry.name?).map Text.upper)
    (later : (w.mark (Text.upper name)).Takes optimize entries w') :
    w.Takes optimize (.label name :: entries) w' := by
  have here : (w.mark (Text.upper name)).symbols.labels[Text.upper name]? =
      some ⟨w.statements.length, w.origin⟩ := by
    rw [Work.mark]
    exact Std.TreeMap.getElem?_insert_self
  refine ⟨later.statements, ?_, ?_⟩
  · intro mark member
    rcases List.mem_cons.1 member with rfl | member
    · rw [later.others _ distinct, here]
    · exact later.marked mark member
  · intro key other
    have names : (Entry.label name :: entries).filterMap Entry.name? =
        name :: entries.filterMap Entry.name? := rfl
    rw [names, List.map_cons, List.mem_cons, not_or] at other
    rw [later.others key other.2, Work.mark, Std.TreeMap.getElem?_insert]
    have differs : ¬ compare (Text.upper name) key = .eq := by
      rw [Std.compare_eq_iff_eq]
      exact fun same => other.1 same.symm
    rw [if_neg differs]

theorem statement {e : Entry} {st : Statement} (isStatement : e.isStatement = true)
    (reads : e.Reads optimize st)
    (later : Takes optimize { w with statements := st :: w.statements } entries w') :
    w.Takes optimize (e :: entries) w' := by
  have names : (e :: entries).filterMap Entry.name? = entries.filterMap Entry.name? := by
    cases e with
    | label name => cases isStatement
    | _ => rfl
  have marks : Entry.marks w.statements.length (e :: entries) =
      Entry.marks (w.statements.length + 1) entries := by
    cases e with
    | label name => cases isStatement
    | _ => rfl
  obtain ⟨statements, left, read⟩ := later.statements
  refine ⟨⟨st :: statements, ?_, ?_⟩, ?_, ?_⟩
  · rw [left, List.reverse_cons, List.append_assoc]
    rfl
  · rw [List.filter_cons_of_pos isStatement]
    exact .cons reads read
  · rw [marks]
    exact later.marked
  · rw [names]
    exact later.others

end Work.Takes

namespace Preprocess

theorem run_entries {o : Options} {entries : List Entry}
    (readable : ∀ e ∈ entries, e.IsReadable o.optimize)
    (distinct : ((entries.filterMap Entry.name?).map Text.upper).Nodup) {w : Work}
    (constants : ∀ key, w.symbols.constants.contains key = false)
    (labels : ∀ name ∈ entries.filterMap Entry.name?,
      w.symbols.labels.contains (Text.upper name) = false) {n : Nat}
    (enough : entries.length + 2 ≤ n) (file global : String) (last : Option Line) (number : Nat) :
    ∃ w', run o n ⟨w, [.flat file
        (Tokenizer.linesFrom file number (entries.map Entry.tokens)) global last]⟩ = (w', none) ∧
      w.Takes o.optimize entries w' := by
  induction entries generalizing w n global last number with
  | nil =>
    obtain ⟨k, rfl⟩ := Nat.exists_eq_add_of_le' enough
    exact ⟨w, run_end o w file global last k, .nil o.optimize w⟩
  | cons entry rest ih =>
    obtain ⟨here, later⟩ := List.forall_mem_cons.1 readable
    obtain ⟨k, rfl⟩ : ∃ k, n = k + 1 := ⟨n - 1, by omega⟩
    have enough' : rest.length + 2 ≤ k := by
      rw [List.length_cons] at enough
      omega
    rw [List.map_cons, Tokenizer.linesFrom]
    -- Both kinds of statements are read in one step, and the rest follows.
    have taken {first : String} {operands : List String} {st : Statement}
        (tokens : entry.tokens = first :: operands) (isStatement : entry.isStatement = true)
        (names : rest.filterMap Entry.name? = (entry :: rest).filterMap Entry.name?)
        (plain : Text.IsPlain first.toList)
        (short : Text.upper first = "DAT" ∨ operands.length ≤ 2)
        (read : Statement.read w.symbols ⟨first :: operands, global, [], file, number⟩ = .ok st)
        (reads : entry.Reads o.optimize st) :
        ∃ w', run o (k + 1) ⟨w, [.flat file (⟨entry.tokens, "", [], file, number⟩ ::
            Tokenizer.linesFrom file (number + 1) (rest.map Entry.tokens)) global last]⟩ =
            (w', none) ∧ w.Takes o.optimize (entry :: rest) w' := by
      have stepped := @step_statement o w file global
        (Tokenizer.linesFrom file (number + 1) (rest.map Entry.tokens)) last number first operands
        st plain short read
      rw [← names] at distinct labels
      obtain ⟨w', finished, takes⟩ :=
        ih (w := { w with statements := st :: w.statements }) later distinct constants labels
          enough'
          global (some ⟨first :: operands, global, [], file, number⟩) (number + 1)
      rw [tokens, run, stepped]
      exact ⟨w', finished, .statement isStatement reads takes⟩
    cases entry with
    | label name =>
      have names : (Entry.label name :: rest).filterMap Entry.name? =
          name :: rest.filterMap Entry.name? := rfl
      rw [names] at distinct labels
      obtain ⟨unused, others⟩ := List.forall_mem_cons.1 labels
      rw [List.map_cons, List.nodup_cons] at distinct
      have stepped := @step_label o w file global
        (Tokenizer.linesFrom file (number + 1) (rest.map Entry.tokens)) last number name here
        (constants _) unused
      rw [Entry.tokens, run, stepped]
      obtain ⟨w', finished, takes⟩ := ih (w := w.mark (Text.upper name)) later distinct.2 constants
        (by
          intro name' member
          have other : Text.upper name ≠ Text.upper name' := by
            intro same
            exact distinct.1 (same ▸ List.mem_map_of_mem member)
          rw [Work.mark, Std.TreeMap.contains_insert, others name' member, Bool.or_false]
          simpa using other) enough' _ _ _
      exact ⟨w', finished, .label distinct.1 takes⟩
    | statement first operands words =>
      obtain ⟨plain, short, reads⟩ := here
      obtain ⟨st, read, gives⟩ := reads w.symbols ⟨first :: operands, global, [], file, number⟩ rfl
      exact taken rfl rfl rfl plain short read gives
    | transfer kind name =>
      have named : IsName name := here
      have free : w.symbols.constant? name = none :=
        Std.TreeMap.getElem?_eq_none_of_contains_eq_false (constants _)
      obtain ⟨st, read, goes⟩ := @Statement.read_goes kind name named w.symbols
        ⟨kind.mnemonic :: kind.operands name, global, [], file, number⟩ free rfl rfl
      refine taken rfl rfl rfl ?_ (.inr ?_) read goes
      · cases kind <;> exact ⟨by decide, by decide⟩
      · cases kind <;> simp [Transfer.operands]

end Preprocess

theorem preprocess_entries {o : Options} {file source : String} {entries : List Entry}
    (tokenized : Tokenizer.tokenize file source =
      ⟨Tokenizer.linesFrom file 1 (entries.map Entry.tokens), none⟩)
    (readable : ∀ e ∈ entries, e.IsReadable o.optimize)
    (distinct : ((entries.filterMap Entry.name?).map Text.upper).Nodup)
    (enough : entries.length + 2 ≤ o.lineLimit) :
    ∃ work, preprocess o file source = (work, none) ∧ Work.Takes o.optimize {} entries work := by
  have start : Preprocess.start file source =
      ⟨{}, [.flat file (Tokenizer.linesFrom file 1 (entries.map Entry.tokens)) "" none]⟩ := by
    rw [Preprocess.start, Reader.ofSource, tokenized]
    rfl
  obtain ⟨work, finished, takes⟩ := Preprocess.run_entries (w := {}) readable distinct
    (fun _ => Std.TreeMap.contains_emptyc) (fun _ _ => Std.TreeMap.contains_emptyc) enough
    file "" none 1
  refine ⟨work, ?_, takes⟩
  rw [preprocess, start, finished]

end WordAsm
