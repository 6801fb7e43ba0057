import WordAsm.Proofs.LayoutConvergence
import WordAsm.Proofs.Replacement

/-!
Convergence of layout with the optimizer. Replacements have no latches, so an instruction that is
replaced by what a later label is worth can change its length for ever. Where the instructions that
can be replaced refer to labels before them only, layout settles as it does without the optimizer.
-/
namespace WordAsm

def Symbols.isBehind (s : Symbols) (line : Line) (index : Nat) (name : String) : Bool :=
  (s.find? name line.global line.scope).all fun (_, label) => label.line.toNat ≤ index

namespace Statement

def looksBack (symbols : Symbols) (index : Nat) (st : Statement) : Bool :=
  match st.body with
  | .instruction (.basic written _) =>
    !written.isReplaceable || written.symbols.all (symbols.isBehind st.line index)
  | _ => true

theorem looksBack_fresh (symbols : Symbols) (index : Nat) (st : Statement) :
    st.fresh.looksBack symbols index = st.looksBack symbols index := by
  obtain ⟨line, body⟩ := st
  cases body with
  | instruction i =>
    cases i with
    | basic written used =>
      simp only [looksBack, fresh, Body.fresh, Instruction.fresh,
        BasicOperation.isReplaceable_fresh, BasicOperation.symbols_fresh]
    | special => rfl
  | _ => rfl

theorem isUnpadded_fresh (st : Statement) : st.fresh.isUnpadded = st.isUnpadded := by
  obtain ⟨line, body⟩ := st
  cases body <;> rfl

theorem hasFixedPadding_of_isUnpadded {st : Statement} (unpadded : st.isUnpadded = true) :
    st.hasFixedPadding = true := by
  obtain ⟨line, body⟩ := st
  cases body with
  | instruction => rfl
  | data => rfl
  | fill => cases unpadded
  | align => cases unpadded

/-- The optimizer may replace the statement. -/
def isReplaceable (st : Statement) : Bool :=
  match st.body with
  | .instruction (.basic written _) => written.isReplaceable
  | _ => false

theorem isReplaceable_fresh (st : Statement) : st.fresh.isReplaceable = st.isReplaceable := by
  obtain ⟨line, body⟩ := st
  cases body with
  | instruction i =>
    cases i with
    | basic written used => exact written.isReplaceable_fresh
    | special => rfl
  | _ => rfl

theorem keepsForm_of_isReplaceable {st : Statement} (read : st.fresh.IsRead)
    (kept : st.isReplaceable = false) : st.KeepsForm true := by
  intro i same ctx position words final emitted
  obtain ⟨line, body⟩ := st
  cases i with
  | special written => exact emitted
  | basic written used =>
    cases body with
    | instruction i' =>
      have fresh : (Instruction.basic written used).fresh = i'.fresh :=
        (Body.instruction.inj same).symm
      have wellRead := wellRead_of_fresh read fresh
      cases i' with
      | special => cases fresh
      | basic written' used' =>
        have read' : written.fresh = written'.fresh := (Instruction.basic.inj fresh).1
        refine Instruction.encode_of_emitBasic wellRead final ?_ emitted
        rw [← BasicOperation.isReplaceable_fresh, read', BasicOperation.isReplaceable_fresh]
        exact kept
    | _ => cases same

theorem emit_of_looksBack {symbols : Symbols} {index : Nat} {st : Statement}
    {before after : Nat → Option Nat} (replaceable : st.isReplaceable = true)
    (backwards : st.looksBack symbols index = true) (agree : ∀ j ≤ index, after j = before j)
    (position : Int) (old old' : Option Nat) :
    st.emit true ⟨symbols, after, true⟩ position old =
      st.emit true ⟨symbols, before, true⟩ position old' := by
  obtain ⟨line, body⟩ := st
  cases body with
  | instruction i =>
    cases i with
    | basic written used =>
      replace replaceable : written.isReplaceable = true := replaceable
      simp only [looksBack, replaceable, Bool.not_true, Bool.false_or, List.all_eq_true]
        at backwards
      have same : ∀ s ∈ written.symbols,
          ((Context.mk symbols after true).resolver line).symbol s =
            ((Context.mk symbols before true).resolver line).symbol s := by
        intro s member
        have behind := backwards s member
        have value : symbols.labelValue after true line s =
            symbols.labelValue before true line s := by
          unfold Symbols.labelValue
          cases found : symbols.find? s line.global line.scope with
          | none => rfl
          | some entry =>
            rw [Symbols.isBehind, found, Option.all_some, decide_eq_true_eq] at behind
            simp only [agree _ behind]
        simp only [Symbols.labelsOn, value]
      simp only [emit]
      rw [@Instruction.emit_of_symbols ⟨symbols, before, true⟩ ⟨symbols, after, true⟩ line position
        written used rfl rfl same true]
    | special => cases replaceable
  | _ => cases replaceable

end Statement

namespace Layout

theorem steady_of_looksBack {symbols : Symbols} {index : Nat} {st : Statement}
    (read : st.fresh.IsRead) (unpadded : st.isUnpadded = true)
    (backwards : st.looksBack symbols index = true) : Steady true symbols index st.fresh := by
  intro st' before after pos old words words' fresh agree e e' first second latches
  cases replaceable : st'.isReplaceable with
  | false =>
    refine @Statement.length_steady true ⟨symbols, before, true⟩ ⟨symbols, after, true⟩ pos old st'
      words words' (fresh ▸ read) (Statement.keepsForm_of_isReplaceable (fresh ▸ read) replaceable)
      ?_ rfl rfl rfl first second latches
    apply Statement.hasFixedPadding_of_isUnpadded
    rw [← Statement.isUnpadded_fresh, fresh, Statement.isUnpadded_fresh]
    exact unpadded
  | true =>
    -- The second emission repeats the first one.
    have kept : e.statement.fresh = st'.fresh := Statement.fresh_emit _ _ _ _ _
    have replaceable' : e.statement.isReplaceable = true := by
      rw [← Statement.isReplaceable_fresh, kept, Statement.isReplaceable_fresh]
      exact replaceable
    have backwards' : e.statement.looksBack symbols index = true := by
      rw [← Statement.looksBack_fresh, kept, fresh, Statement.looksBack_fresh]
      exact backwards
    have again : e' = e := by
      simp only [e', Statement.emit_of_looksBack replaceable' backwards' agree pos _ old]
      exact Statement.emit_again _ _ _ _ _
    rw [again, first] at second
    cases second
    rfl

theorem known_of_between {slots slots' : List Slot} {i : Nat}
    (known : ∀ slot ∈ slots', slot.words.isSome = true) (inside : i ≤ slots'.length) :
    (between slots slots' i).map (·.words.isSome) =
      List.replicate i true ++ (slots.map (·.words.isSome)).drop i := by
  rw [between, List.map_append, List.map_drop]
  congr 1
  rw [List.eq_replicate_iff]
  constructor
  · rw [List.length_map, List.length_take, Nat.min_eq_left inside]
  · intro b member
    obtain ⟨slot, taken, rfl⟩ := List.mem_map.1 member
    exact known slot (List.mem_of_mem_take taken)

theorem division_of_pass {optimize : Bool} {symbols : Symbols} {finalize : Bool}
    {slots slots₀ slots₁ : List Slot} {failure : Failure}
    (plain : Passes false symbols finalize slots₀ slots₁)
    (unpadded : ∀ slot ∈ slots₀, slot.statement.isUnpadded = true)
    (fresh : slots.map (·.statement.fresh) = slots₀.map (·.statement.fresh))
    (filled : slots.map (·.words.isSome) = slots₀.map (·.words.isSome))
    (failed : (pass optimize symbols finalize slots).outcome = .error failure) :
    failure.fault = .divisionByZero := by
  obtain ⟨new, i, slot, here, length, known, _, error⟩ := failed_of_pass failed
  have entry := congrArg (·[i]?) fresh
  simp only [List.getElem?_map, here, Option.map_some] at entry
  obtain ⟨slot₀, here₀, same⟩ := Option.map_eq_some_iff.1 entry.symm
  obtain ⟨words, emitted, _⟩ := plain.emitted here₀
  obtain ⟨inside, _⟩ := List.getElem?_eq_some_iff.1 here₀
  have alike : Context.Matches ⟨symbols, position (between slots₀ slots₁ i), finalize⟩
      ⟨symbols, position (between slots new i), finalize⟩ := by
    refine ⟨rfl, rfl, ?_⟩
    intro j
    apply isSome_position
    rw [known_of_between known (Nat.le_of_eq length.symm), filled,
      known_of_between (known_of_passes plain) (by rw [plain.length]; omega)]
  exact Statement.emit_similar alike same.symm (unpadded slot₀ (List.mem_of_getElem? here₀)) emitted
    optimize _ error

theorem passes_of_run {o : Options} {symbols : Symbols} {statements : List Statement}
    (settled : (run o symbols statements).failure = none) :
    ∃ slots slots', Passes o.optimize symbols false (start statements) slots ∧
      Passes o.optimize symbols true slots slots' := by
  simp only [run] at settled
  split at settled
  · cases settled
  · rename_i passed
    obtain ⟨left, more⟩ : ∃ left, o.passes = left + 1 := by
      refine ⟨o.passes - 1, ?_⟩
      unfold Options.passes Options.defaultPasses
      split <;> omega
    simp only [more, settle] at settled
    split at settled
    · cases settled
    · rename_i passed'
      exact ⟨_, _, (passes_of_pass passed).1, (passes_of_pass passed').1⟩

end Layout

namespace Preprocess

theorem run_layout_options (o : Options) (optimize : Bool) (passes : Int) (n : Nat)
    (p : Preprocess) : run { o with optimize, maxPasses := passes } n p = run o n p := by
  induction n generalizing p with
  | zero => rfl
  | succ n ih =>
    have here : step { o with optimize, maxPasses := passes } p = step o p := rfl
    simp only [run, here, ih]

end Preprocess

theorem preprocess_layout_options (o : Options) (optimize : Bool) (passes : Int)
    (file source : String) :
    preprocess { o with optimize, maxPasses := passes } file source = preprocess o file source :=
  Preprocess.run_layout_options o optimize passes o.lineLimit (Preprocess.start file source)

theorem Layout.division_of_run {o : Options} {passes m : Int} {symbols : Symbols}
    {statements : List Statement} {failure : Failure}
    (read : ∀ st ∈ statements, st.fresh.IsRead)
    (plain : (run { o with optimize := false, maxPasses := passes } symbols statements).failure =
      none)
    (unpadded : ∀ st ∈ statements, st.isUnpadded = true)
    (backwards : ∀ entry ∈ statements.zipIdx, entry.1.looksBack symbols entry.2 = true)
    (enough : 2 * (statements.countP Statement.isInstruction : Int) + 3 ≤ m)
    (failed : (run { o with optimize := true, maxPasses := m } symbols statements).failure =
      some failure) : failure.fault = .divisionByZero := by
  obtain ⟨slots₀, slots₁, zeroth, first⟩ := passes_of_run plain
  have fresh₀ : slots₀.map (·.statement.fresh) = statements.map Statement.fresh := by
    rw [fresh_of_passes zeroth, start, List.map_map]
    rfl
  have known₀ := known_of_passes zeroth
  have unpadded₀ (slot : Slot) (member : slot ∈ slots₀) : slot.statement.isUnpadded = true := by
    have entry : slot.statement.fresh ∈ statements.map Statement.fresh := by
      rw [← fresh₀]
      exact List.mem_map_of_mem member
    obtain ⟨st, inside, same⟩ := List.mem_map.1 entry
    rw [← Statement.isUnpadded_fresh, ← same, Statement.isUnpadded_fresh]
    exact unpadded st inside
  refine @failsWith_run { o with optimize := true, maxPasses := m } symbols statements
    (fun fault => fault = .divisionByZero) ?_ ?_ ?_ ?_ _ failed
  · intro i st found
    rw [List.getElem?_map] at found
    obtain ⟨st, here, rfl⟩ := Option.map_eq_some_iff.1 found
    have member := List.mem_of_getElem? here
    exact steady_of_looksBack (read st member) (unpadded st member)
      (backwards (st, i) (List.mem_zipIdx_iff_getElem?.2 here))
  · intro failure failed
    refine division_of_pass zeroth ?_ rfl rfl failed
    intro slot member
    obtain ⟨st, inside, rfl⟩ := List.mem_map.1 member
    exact unpadded st inside
  · intro slots fresh known failure failed
    refine division_of_pass first unpadded₀ (fresh.trans fresh₀.symm) ?_ failed
    have length : slots.length = slots₀.length := by
      simpa using congrArg List.length (fresh.trans fresh₀.symm)
    have all {l : List Slot} (known : ∀ slot ∈ l, slot.words.isSome = true) :
        l.map (·.words.isSome) = List.replicate l.length true := by
      rw [List.eq_replicate_iff]
      simpa using known
    rw [all known, all known₀, length]
  · have allowed : Options.passes { o with optimize := true, maxPasses := m } = m.toNat :=
      if_neg (by change ¬ m ≤ 0; omega)
    rw [allowed]
    omega

theorem exists_of_isSome {x : Except Failure Program} (given : x.toOption.isSome = true) :
    ∃ p, x = .ok p := by
  obtain ⟨p, found⟩ := Option.isSome_iff_exists.1 given
  exact ⟨p, ok_of_toOption found⟩

/-- Where a source without padding can be assembled as it is written, and where the instructions
that the optimizer may replace refer to no later label, it can be assembled with the optimizer, in
two passes for each instruction and three more, unless an expression divides by zero at the new
positions. -/
theorem optimized_layout_converges (o : Options) (file source : String) (passes : Int)
    (p : Program)
    (plain : (assemble { o with optimize := false, maxPasses := passes } file source).outcome =
      .ok p)
    (unpadded : ∀ st ∈ (preprocess o file source).1.statements, st.isUnpadded = true)
    (backwards : ∀ entry ∈ (preprocess o file source).1.statements.reverse.zipIdx,
      entry.1.looksBack (preprocess o file source).1.symbols entry.2 = true)
    (m : Int) (enough : 2 * ((preprocess o file source).1.statements.countP
      Statement.isInstruction : Int) + 3 ≤ m) :
    let optimized := (assemble { o with optimize := true, maxPasses := m } file source).outcome
    (∃ p', optimized = .ok p') ∨
      ∃ failure, optimized = .error failure ∧ failure.fault = .divisionByZero := by
  intro optimized
  have reads := statements_isRead o file source
  rcases work : preprocess o file source with ⟨w, stopped⟩
  simp only [work] at reads unpadded backwards enough
  simp only [assemble, preprocess_layout_options, work] at plain
  simp only [optimized, assemble, preprocess_layout_options, work]
  cases stopped with
  | some failure => cases plain
  | none =>
    simp only at plain ⊢
    split at plain
    · cases plain
    rename_i settled
    split
    · rename_i failure failed
      refine .inr ⟨failure, rfl, ?_⟩
      apply Layout.division_of_run _ settled _ backwards _ failed
      · intro st member
        have read := reads st (List.mem_reverse.1 member)
        rwa [Statement.fresh_of_isRead read]
      · intro st member
        exact unpadded st (List.mem_reverse.1 member)
      · rwa [List.countP_reverse]
    · exact .inl ⟨_, rfl⟩

-- The addition is shortened, which brings the label at the end closer; what refers to that label
-- is not replaced.
theorem optimized_layout_converges_backwards :
    let source := ":loop SET A, end\nADD [end], loop-1\nADD B, loop-1\n:end DAT loop-end"
    let work := (preprocess {} "loop" source).1
    let optimized := (assemble { optimize := true, maxPasses := 9 } "loop" source).outcome
    (∃ p, (assemble { optimize := false } "loop" source).outcome = .ok p) ∧
    (∀ st ∈ work.statements, st.isUnpadded = true) ∧
    work.statements.reverse.map Statement.isReplaceable = [false, false, true, false] ∧
    (∀ entry ∈ work.statements.reverse.zipIdx, entry.1.looksBack work.symbols entry.2 = true) ∧
    work.statements.countP Statement.isInstruction = 3 ∧
    ((∃ p', optimized = .ok p') ∨
      ∃ failure, optimized = .error failure ∧ failure.fault = .divisionByZero) := by
  intro source work optimized
  obtain ⟨assembled, unpadded, replaceable, backwards, count⟩ :
      (assemble { optimize := false } "loop" source).outcome.toOption.isSome = true ∧
      (∀ st ∈ work.statements, st.isUnpadded = true) ∧
      work.statements.reverse.map Statement.isReplaceable = [false, false, true, false] ∧
      (∀ entry ∈ work.statements.reverse.zipIdx,
        entry.1.looksBack work.symbols entry.2 = true) ∧
      work.statements.countP Statement.isInstruction = 3 := by decide +kernel
  obtain ⟨p, plain⟩ := exists_of_isSome assembled
  refine ⟨⟨p, plain⟩, unpadded, replaceable, backwards, count, ?_⟩
  apply optimized_layout_converges {} "loop" source 8 p plain unpadded backwards 9
  change 2 * (work.statements.countP Statement.isInstruction : Int) + 3 ≤ 9
  rw [count]
  decide

namespace Layout

theorem notConverged_of_moving {optimize : Bool} {symbols : Symbols}
    {moving : List Slot → Prop}
    (moves : ∀ slots, moving slots → (pass optimize symbols true slots).outcome = .ok true ∧
      moving (pass optimize symbols true slots).slots)
    {slots : List Slot} (start : moving slots) (count left : Nat) :
    (settle optimize symbols count left slots).failure =
      some ⟨.notConverged (count + left), none⟩ := by
  induction left generalizing count slots with
  | zero => rfl
  | succ left ih =>
    obtain ⟨changed, next⟩ := moves slots start
    simp only [settle, changed, if_true]
    rw [ih next, Nat.add_right_comm, Nat.add_assoc]

def swings (symbols : Symbols) (statements : List Statement) : Bool :=
  let next := pass true symbols true
  let zeroth := pass true symbols false (start statements)
  let first := next zeroth.slots
  let second := next first.slots
  let third := next second.slots
  zeroth.outcome.toOption == some true && first.outcome.toOption == some true &&
    second.outcome.toOption == some true && third.outcome.toOption == some true &&
    third.slots == first.slots

theorem notConverged_of_swings {o : Options} {symbols : Symbols} {statements : List Statement}
    (optimize : o.optimize = true) (swinging : swings symbols statements = true) :
    (run o symbols statements).failure = some ⟨.notConverged o.passes, none⟩ := by
  simp only [swings, Bool.and_eq_true, beq_iff_eq] at swinging
  obtain ⟨⟨⟨⟨passed, moves₀⟩, moves₁⟩, moves₂⟩, back⟩ := swinging
  simp only [run, optimize, ok_of_toOption passed]
  generalize (pass true symbols false (start statements)).slots = zeroth
    at moves₀ moves₁ moves₂ back
  have unsettled := @notConverged_of_moving true symbols (fun slots => slots = zeroth ∨
    slots = (pass true symbols true zeroth).slots ∨
    slots = (pass true symbols true (pass true symbols true zeroth).slots).slots) ?_ zeroth
    (.inl rfl) 0 o.passes
  · rw [unsettled, Nat.zero_add]
  · rintro slots (rfl | rfl | rfl)
    · exact ⟨ok_of_toOption moves₀, .inr (.inl rfl)⟩
    · exact ⟨ok_of_toOption moves₁, .inr (.inr rfl)⟩
    · exact ⟨ok_of_toOption moves₂, .inr (.inl back)⟩

/-- The provisional pass divides by zero. -/
def divides (optimize : Bool) (symbols : Symbols) (statements : List Statement) : Bool :=
  match (pass optimize symbols false (start statements)).outcome with
  | .ok _ => false
  | .error failure => failure.fault == .divisionByZero

end Layout

section

variable {o : Options} {file source : String} {optimize : Bool} {m : Int} {failure : Failure}

theorem assemble_of_run (read : (preprocess o file source).2 = none)
    (failed : (Layout.run { o with optimize, maxPasses := m } (preprocess o file source).1.symbols
      (preprocess o file source).1.statements.reverse).failure = some failure) :
    (assemble { o with optimize, maxPasses := m } file source).outcome = .error failure := by
  simp only [assemble, preprocess_layout_options]
  rcases work : preprocess o file source with ⟨w, stopped⟩
  rw [work] at read failed
  cases read
  simp only [failed]

theorem assemble_swings
    (swinging : (preprocess o file source).2 = none ∧ Layout.swings
      (preprocess o file source).1.symbols (preprocess o file source).1.statements.reverse) :
    (assemble { o with optimize := true, maxPasses := m } file source).outcome =
      .error ⟨.notConverged (Options.passes { o with optimize := true, maxPasses := m }), none⟩ :=
  assemble_of_run swinging.1 (Layout.notConverged_of_swings rfl swinging.2)

theorem assemble_divides
    (divides : (preprocess o file source).2 = none ∧ Layout.divides optimize
      (preprocess o file source).1.symbols (preprocess o file source).1.statements.reverse) :
    ∃ failure, (assemble { o with optimize, maxPasses := m } file source).outcome =
      .error failure ∧ failure.fault = .divisionByZero := by
  obtain ⟨read, fault⟩ := divides
  unfold Layout.divides at fault
  split at fault
  · cases fault
  · rename_i failure failed
    refine ⟨failure, assemble_of_run read ?_, eq_of_beq fault⟩
    simp only [Layout.run, failed]

end

-- Multiplying by 64 is a shift, in one word instead of two, which brings the label to 63; there
-- it is a product again. A jump to 0xFFE2 from the start subtracts 31, in one word instead of two,
-- which brings the label to 0xFFE1; to there it would subtract 32, and is a long jump again. In the
-- last source the label comes to where the divisor is zero.
theorem optimized_layout_oscillates :
    let shifting := "MUL A, end\nDAT \"" ++
      ".............................................................." ++ "\"\n:end"
    let jumping := ".org 0xFFE0\nSET PC, next\n:next"
    let dividing := "ADD A, 0xFFFF\n:next DAT 1/(next-1)"
    (∀ source ∈ [shifting, jumping],
      (∀ st ∈ (preprocess {} "main" source).1.statements, st.isUnpadded = true) ∧
      (∃ p, (assemble { optimize := false } "main" source).outcome = .ok p) ∧
      ∀ m : Int, ∃ n, (assemble { optimize := true, maxPasses := m } "main" source).outcome =
        .error ⟨.notConverged n, none⟩) ∧
    (∀ st ∈ (preprocess {} "main" dividing).1.statements, st.isUnpadded = true) ∧
      (∃ p, (assemble { optimize := false } "main" dividing).outcome = .ok p) ∧
      ∀ m : Int, ∃ failure,
        (assemble { optimize := true, maxPasses := m } "main" dividing).outcome = .error failure ∧
          failure.fault = .divisionByZero := by
  intro shifting jumping dividing
  have swinging : ∀ source ∈ [shifting, jumping],
      (assemble { optimize := false } "main" source).outcome.toOption.isSome = true ∧
      (∀ st ∈ (preprocess {} "main" source).1.statements, st.isUnpadded = true) ∧
      (preprocess {} "main" source).2 = none ∧
      Layout.swings (preprocess {} "main" source).1.symbols
        (preprocess {} "main" source).1.statements.reverse = true := by decide +kernel
  have divides : (assemble { optimize := false } "main" dividing).outcome.toOption.isSome = true ∧
      (∀ st ∈ (preprocess {} "main" dividing).1.statements, st.isUnpadded = true) ∧
      (preprocess {} "main" dividing).2 = none ∧
      Layout.divides true (preprocess {} "main" dividing).1.symbols
        (preprocess {} "main" dividing).1.statements.reverse = true := by decide +kernel
  refine ⟨?_, divides.2.1, exists_of_isSome divides.1, ?_⟩
  · intro source member
    obtain ⟨plain, unpadded, swings⟩ := swinging source member
    refine ⟨unpadded, exists_of_isSome plain, ?_⟩
    intro m
    exact ⟨_, @assemble_swings {} "main" source m swings⟩
  · intro m
    exact @assemble_divides {} "main" dividing true m divides.2.2

end WordAsm
