import WordAsm.Proofs.LabelValues
import WordAsm.Proofs.PeepholeMeaning

/-!
Jumps that count from the program counter. What is added to it counts from the word after the
instruction, so that a target depends on the number of words and on where they are loaded.
Substitution does not look at either: it makes one word of two without a change to the literal, and
takes positions in the program for addresses. So a relative jump falls short by the word that is
saved, and an absolute one that became relative reaches its target only from a program that is
loaded at zero.
-/
namespace WordAsm

namespace BasicOperation

section

variable {ctx : Context} {line : Line} {i sub left : BasicOperation}

theorem decode_encode {words : List UInt16} (wellReadA : i.a.WellRead) (wellReadB : i.b.WellRead)
    (encoded : (i.encode ctx line).1 = .ok words) :
    ∃ codeA a codeB b extraA extraB, i.a.field ctx line = (.ok codeA, a) ∧
      i.b.field ctx line = (.ok codeB, b) ∧ a.extra codeA ctx.finalize = .ok extraA ∧
      b.extra codeB ctx.finalize = .ok extraB ∧ Field.Takes codeA extraA ∧
      Field.Takes codeB extraB ∧ words.length = 1 + extraA.length + extraB.length ∧
      decode? words =
        some (.basic i.op (.ofField codeA (extraA.headD 0)) (.ofField codeB (extraB.headD 0))) := by
  obtain ⟨codeA, a, codeB, b, extraA, extraB, fieldA, fieldB, givenA, givenB, rfl⟩ :=
    encode_ok encoded
  have takenA := Operand.takes wellReadA fieldA givenA
  have takenB := Operand.takes wellReadB fieldB givenB
  have decoded := Decoded.ofWords_basic i.op takenA takenB []
  rw [List.append_nil] at decoded
  refine ⟨codeA, a, codeB, b, extraA, extraB, fieldA, fieldB, givenA, givenB, takenA, takenB, ?_,
    congrArg some decoded⟩
  rw [List.length_cons, List.length_append]
  omega

theorem nextWord_of_substitute {position : Int} {depth : Nat} {replacing : Option BasicOp}
    {replaced : BasicOp} {codeB : UInt16} {b : Operand} (relative : i.op = .add ∨ i.op = .sub)
    (fieldB : i.b.field ctx line = (.ok codeB, b))
    (chosen : (i.substitute ctx line position depth replacing).1 = .ok (some (replaced, sub))) :
    codeB = Field.nextWord := by
  obtain ⟨_, _, _, left, _, _, _, _, fields, given, _⟩ := substitute_ok chosen
  obtain ⟨op, _, fieldB'⟩ := fields_ok fields
  cases fieldB.symm.trans fieldB'
  obtain ⟨_, _, _, ⟨long, _⟩ | ⟨_, k, _, _, power⟩⟩ := replacement_ok given
  · exact long
  · rw [op] at power
    rcases relative with kind | kind
    · rw [kind] at power
      cases power
    · rw [kind] at power
      cases power

section

variable {position : Nat} {codeA codeB subA v v' : UInt16}
  (chain : Substituted ctx line position i codeA codeB subA v v' left sub)

include chain

theorem Substituted.decode {words : List UInt16} (wellReadA : i.a.WellRead)
    (wellReadB : i.b.WellRead) (encoded : (sub.encode ctx line).1 = .ok words) :
    words.length = 1 ∧
      decode? words = some (.basic sub.op (.ofField subA 0) (.ofField (Field.literal + v') 0)) := by
  obtain ⟨_, _, _, _, extraA, extraB, fieldA, fieldB, _, _, takenA, takenB, length, decoded⟩ :=
    decode_encode (Operand.wellRead_congr chain.first wellReadA) (chain.wellRead wellReadB) encoded
  cases chain.subFieldA.symm.trans fieldA
  cases chain.subFieldB.symm.trans fieldB
  obtain ⟨alone, _, _⟩ := Field.literal_ok chain.fits
  obtain rfl : extraA = [] := by simpa [chain.alone] using takenA.length
  obtain rfl : extraB = [] := by simpa [alone] using takenB.length
  exact ⟨length, decoded⟩

theorem Substituted.counter_argument {finalize : Bool} {words : List UInt16}
    (given : left.a.extra codeA finalize = .ok words)
    (counter : Argument.ofField codeA (words.headD 0) = .pc) : Argument.ofField subA 0 = .pc := by
  rcases Operand.same_argument chain.fieldA given chain.first chain.subFieldA chain.alone with
    same | ⟨w, other, _⟩
  · rw [same, counter]
  · rw [counter] at other
    cases other

theorem Substituted.relative_jump {depth : Nat} {replacing : Option BasicOp} {replaced : BasicOp}
    {words : List UInt16} {b : Argument} {w : UInt16} (relative : i.op = .add ∨ i.op = .sub)
    (wellReadA : i.a.WellRead) (wellReadB : i.b.WellRead)
    (chosen : (i.substitute ctx line position depth replacing).1 = .ok (some (replaced, sub)))
    (encoded : (i.encode ctx line).1 = .ok words)
    (decoded : decode? words = some (.basic i.op .pc b)) (literal : b.literal? = some w) :
    v = w ∧ Argument.ofField subA 0 = .pc ∧ words.length = 2 ∧
      (Decoded.basic i.op .pc b).size = 2 := by
  obtain ⟨_, _, _, _, extraA, extraB, fieldA, fieldB, givenA, givenB, takenA, takenB, length,
    decoded'⟩ := decode_encode wellReadA wellReadB encoded
  cases chain.fieldA.symm.trans fieldA
  cases chain.fieldB.symm.trans fieldB
  rw [decoded] at decoded'
  injection decoded' with decoded'
  injection decoded' with _ counter second
  have value := (Operand.amounts_of_constant wellReadB chain.fieldB chain.constant).2 _ _ givenB
  rw [← second, literal] at value
  have long := nextWord_of_substitute relative chain.fieldB chosen
  have shortA : extraA.length = 0 := by
    rw [takenA.length, ← Argument.length_extra_ofField _ (extraA.headD 0) takenA.bound, ← counter]
    rfl
  have longB : extraB.length = 1 := by
    rw [takenB.length, long]
    rfl
  refine ⟨(Option.some.inj value).symm, chain.counter_argument givenA counter.symm, ?_, ?_⟩
  · rw [length, shortA, longB]
  · rw [counter, second, Decoded.size_basic i.op takenA takenB, shortA, longB]

theorem Substituted.target_moved {w : UInt16} (moves : i.op = .set ∨ i.op = .add ∨ i.op = .sub)
    (goes : i.op.destination (UInt16.ofNat (position + 1)) v = some w) (origin : Nat) :
    (Decoded.basic sub.op .pc (.ofField (Field.literal + v') 0)).target? (origin + position) =
      some ((w + UInt16.ofNat origin).toNat, .jump) := by
  obtain ⟨_, literal, single⟩ := Field.literal_ok chain.fits
  rw [← following_eq] at goes
  have relative := BasicOp.relative_of_rewrite chain.rewrite moves
  have kept := BasicOp.destination_of_rewrite chain.rewrite goes
  have moved := BasicOp.destination_shift relative kept (UInt16.ofNat origin)
  have next : UInt16.ofNat (origin + position + 1) =
      following position + UInt16.ofNat origin := by
    rw [following_eq, ← UInt16.ofNat_add]
    congr 1
    omega
  apply Decoded.target_of_destination literal
  rw [Decoded.size_counter single, next]
  exact moved

end

end

end BasicOperation

theorem Instruction.emitted_cases {ctx : Context} {line : Line} {position : Int}
    {written : BasicOperation} {used : Option BasicOperation} {words : List UInt16}
    (emitted : ((basic written used).emit true ctx line position).1 = .ok words) :
    ((written.encode ctx line).1 = .ok words ∧
        ∃ kept, ((basic written used).emit true ctx line position).2.1 = basic kept none) ∨
      ∃ replaced sub, (sub.encode ctx line).1 = .ok words ∧
        (written.substitute ctx line position BasicOperation.chainLength none).1 =
          .ok (some (replaced, sub)) := by
  rw [emit, emitBasic_optimized] at emitted ⊢
  rcases outcome : (written.substitute ctx line position BasicOperation.chainLength none).1
    with f | _ | ⟨replaced, sub⟩
  · rw [outcome] at emitted
    cases emitted
  · rw [outcome] at emitted
    exact .inl ⟨emitted, _, rfl⟩
  · rw [outcome] at emitted
    exact .inr ⟨replaced, sub, emitted, rfl⟩

/-- A jump by a literal that is added to the program counter or subtracted from it goes as many
words less far as substitution saves, so that it reaches its target only if nothing is saved. -/
theorem relative_jump_falls_short {s : Symbols} {line : Line} {written : BasicOperation}
    {used : Option BasicOperation} {ctx : Context} {position : Nat} {plain optimal : List UInt16}
    {b : Argument} {v : UInt16}
    (read : Instruction.read s line = .ok (Instruction.basic written used).fresh)
    (emitted : ((Instruction.basic written used).emit false ctx line position).1 = .ok plain)
    (optimized : ((Instruction.basic written used).emit true ctx line position).1 = .ok optimal)
    (relative : written.op = .add ∨ written.op = .sub)
    (decoded : decode? plain = some (.basic written.op .pc b)) (literal : b.literal? = some v) :
    ∃ d t t', decode? optimal = some d ∧
      (Decoded.basic written.op .pc b).target? position = some (t, .jump) ∧
      d.target? position = some (t', .jump) ∧
      t = (t' + (plain.length - optimal.length)) % addressSpace ∧
      (t' = t ↔ optimal = plain) := by
  obtain ⟨_, wellReadA, wellReadB⟩ := Instruction.wellRead_of_read read
  rw [Instruction.emit_plain] at emitted
  have moves (next : UInt16) : ∃ w, written.op.destination next v = some w := by
    rcases relative with kind | kind
    · exact ⟨next + v, by rw [kind]; rfl⟩
    · exact ⟨next - v, by rw [kind]; rfl⟩
  rcases Instruction.emitted_cases optimized with ⟨kept, _⟩ | ⟨_, sub, encoded, chosen⟩
  · -- Nothing was replaced.
    have same : Except.ok optimal = Except.ok plain := kept.symm.trans emitted
    cases same
    obtain ⟨w, goes⟩ := moves (UInt16.ofNat (position + (Decoded.basic written.op .pc b).size))
    have target := Decoded.target_of_destination literal goes
    refine ⟨_, w.toNat, w.toNat, decoded, target, target, ?_, by simp⟩
    have bound := w.toNat_lt
    rw [Nat.sub_self, Nat.add_zero, addressSpace]
    omega
  · obtain ⟨codeA, codeB, subA, v₀, v', chain⟩ :=
      BasicOperation.substituted wellReadB chosen
    obtain ⟨rfl, counter, length, size⟩ :=
      chain.relative_jump relative wellReadA wellReadB chosen emitted decoded literal
    obtain ⟨single, decoded'⟩ := chain.decode wellReadA wellReadB encoded
    rw [counter] at decoded'
    obtain ⟨w, goes⟩ := moves (UInt16.ofNat (position + 1))
    have near := chain.target_moved (.inr relative) goes 0
    rw [Nat.zero_add, show UInt16.ofNat 0 = 0 from rfl, UInt16.add_zero] at near
    have far : (Decoded.basic written.op .pc b).target? position = some ((w + 1).toNat, .jump) := by
      apply Decoded.target_of_destination literal
      rw [size, show position + 2 = position + 1 + 1 from rfl, UInt16.ofNat_add]
      exact BasicOp.destination_shift relative goes 1
    have bound := w.toNat_lt
    have next : (w + 1).toNat = (w.toNat + 1) % addressSpace := UInt16.toNat_add w 1
    rw [addressSpace] at next
    refine ⟨_, (w + 1).toNat, w.toNat, decoded', far, near, ?_, ?_⟩
    · rw [length, single, addressSpace]
      omega
    · constructor
      · intro same
        omega
      · rintro rfl
        omega

-- Two words that count from the fourth one become one that counts from the third.
theorem relative_jump_falls_short_backwards : ∃ d t t', decode? [0x8DC3] = some d ∧
    (Decoded.basic .add .pc (.word 0xFFFD)).target? 2 = some (t, .jump) ∧
    d.target? 2 = some (t', .jump) ∧ t = (t' + (2 - 1)) % addressSpace ∧
    (t' = t ↔ [(0x8DC3 : UInt16)] = [0x7DC2, 0xFFFD]) := by
  let line : Line := ⟨["ADD", "PC", "0xFFFD"], "", [], "loop", 3⟩
  let ctx : Context := ⟨{}, fun _ => none, true⟩
  let written : BasicOperation :=
    ⟨.add, .fixed Field.pc "PC", .ofTree "0xFFFD" (.number 0xFFFD false)⟩
  have read : Instruction.read {} line = .ok (Instruction.basic written none).fresh :=
    ok_of_toOption (by decide +kernel)
  have emitted : ((Instruction.basic written none).emit false ctx line (2 : Nat)).1 =
      .ok [0x7DC2, 0xFFFD] := ok_of_toOption (by decide +kernel)
  have optimized : ((Instruction.basic written none).emit true ctx line (2 : Nat)).1 =
      .ok [0x8DC3] := ok_of_toOption (by decide +kernel)
  have decoded : decode? [0x7DC2, 0xFFFD] = some (.basic written.op .pc (.word 0xFFFD)) := by
    decide +kernel
  exact relative_jump_falls_short read emitted optimized (.inl rfl) decoded rfl

def loop : String := "SET A, 1\nADD A, 1\nADD PC, 0xFFFD\n"

-- The loop goes back to its second word, and with substitution to the first.
theorem relative_jump_misses :
    (assemble { optimize := false } "loop" loop).outcome.toOption.map Program.words =
      some [0x8401, 0x8402, 0x7DC2, 0xFFFD] ∧
    (assemble { optimize := true } "loop" loop).outcome.toOption.map Program.words =
      some [0x8401, 0x8402, 0x8DC3] ∧
    (decode? [0x7DC2, 0xFFFD]).bind (Decoded.target? 2) = some (1, .jump) ∧
    (decode? [0x8DC3]).bind (Decoded.target? 2) = some (0, .jump) := by
  refine ⟨?_, ?_, ?_, ?_⟩ <;> decide +kernel

theorem Instruction.target_of_replaced {s : Symbols} {line : Line}
    {written kept sub : BasicOperation} {used : Option BasicOperation} {ctx : Context}
    {position : Nat} {words : List UInt16}
    (read : Instruction.read s line = .ok (basic written used).fresh)
    (emitted : ((basic written used).emit true ctx line position).1 = .ok words)
    (replaced : ((basic written used).emit true ctx line position).2.1 = basic kept (some sub))
    (jump : written.op = .set) :
    ∃ raw tree last latched v op b d, written.b = .expression raw tree last latched ∧
      tree.HasValue (ctx.valuation line) v ∧ words.length = 1 ∧
      decode? words = some (.basic op .pc b) ∧ (op = .add ∨ op = .sub) ∧ b.literal? = some d ∧
      ∀ origin, (Decoded.basic op .pc b).target? (origin + position) =
        some (((lowWord v).toNat + origin) % addressSpace, .jump) := by
  obtain ⟨_, wellReadA, wellReadB⟩ := wellRead_of_read read
  rcases emitted_cases emitted with ⟨_, _, none⟩ | ⟨_, sub', encoded, chosen⟩
  · rw [none] at replaced
    cases replaced
  · obtain ⟨codeA, codeB, subA, v, v', chain⟩ := BasicOperation.substituted wellReadB chosen
    obtain ⟨⟨raw, tree, last, latched, n, shape, yields, rfl⟩, _⟩ :=
      Operand.amounts_of_constant wellReadB chain.fieldB chain.constant
    have counter := chain.counter jump
    have given : (written.fields ctx line).2.a.extra codeA ctx.finalize = .ok [] := by
      rw [counter]
      cases (written.fields ctx line).2.a <;> rfl
    obtain ⟨single, decoded⟩ := chain.decode wellReadA wellReadB encoded
    rw [chain.counter_argument given (by rw [counter]; rfl)] at decoded
    obtain ⟨_, literal, _⟩ := Field.literal_ok chain.fits
    refine ⟨raw, tree, last, latched, n, sub'.op, _, v', shape, Context.hasValue_of_yields yields,
      single, decoded, BasicOp.relative_of_rewrite chain.rewrite (.inl jump), literal, ?_⟩
    intro origin
    have goes : written.op.destination (UInt16.ofNat (position + 1)) (lowWord n) =
        some (lowWord n) := by
      rw [jump]
      rfl
    rw [chain.target_moved (.inl jump) goes origin, UInt16.toNat_add, UInt16.toNat_ofNat',
      Nat.add_mod_mod]
    rfl

theorem Layout.isRead_slot {o : Options} {file source : String} {slot : Slot}
    (member : slot ∈ (run o (preprocess o file source).1.symbols
      (preprocess o file source).1.statements.reverse).slots) : slot.statement.fresh.IsRead := by
  have inside := List.mem_map_of_mem (f := fun s : Slot => s.statement.fresh) member
  rw [map_run (Statement.fresh_emit o.optimize)] at inside
  obtain ⟨st, inside, same⟩ := List.mem_map.1 inside
  have read := statements_isRead o file source st (List.mem_reverse.1 inside)
  rw [← same, Statement.fresh_of_isRead read]
  exact read

/-- In a program every jump that sets the program counter and was replaced adds to it or subtracts
from it in one word; loaded at an origin, it goes past the value of its operand by that origin, so
that it reaches this value only if the origin is a multiple of the address space. -/
theorem replaced_jump_ignores_origin (o : Options) (file source : String) (p : Program)
    (assembled : (assemble o file source).outcome = .ok p) (optimizing : o.optimize = true) :
    let work := (preprocess o file source).1
    let slots := (Layout.run o work.symbols work.statements.reverse).slots
    ∀ (n : Nat) (slot : Slot) (listed : Listed) (written sub : BasicOperation),
      slots[n]? = some slot → p.lines[n]? = some listed →
      slot.statement.body = .instruction (.basic written (some sub)) → written.op = .set →
      ∃ raw tree last latched v op b d, written.b = .expression raw tree last latched ∧
        tree.HasValue (work.symbols.valuation slot.statement.line
          fun key _ => p.labels.lookup key) v ∧
        listed.words.length = 1 ∧ decode? listed.words = some (.basic op .pc b) ∧
        (op = .add ∨ op = .sub) ∧ b.literal? = some d ∧
        ∀ origin, ∃ t, (Decoded.basic op .pc b).target? (origin + listed.position) =
            some (t, .jump) ∧
          t = ((lowWord v).toNat + origin) % addressSpace ∧
          (t = (lowWord v).toNat ↔ addressSpace ∣ origin) := by
  intro work slots n slot listed written sub here line replaced jump
  obtain ⟨settled, rfl⟩ := assemble_ok assembled
  have fixed : Layout.Fixed o.optimize work.symbols slots := Layout.fixed_of_run settled
  obtain ⟨emitted, left⟩ := Program.list_emits fixed.stable fixed.refreshed here line
  obtain ⟨s, read⟩ := Layout.isRead_slot (List.mem_of_getElem? here)
  have read := Statement.body_of_read read
  rw [Program.valuation_labels]
  obtain ⟨⟨line, body⟩, words⟩ := slot
  cases replaced
  rw [optimizing] at emitted left
  rw [Statement.outcome_instruction] at emitted
  have kept : Body.instruction _ = _ := congrArg Statement.body left
  obtain ⟨raw, tree, last, latched, v, op, b, d, shape, value, single, decoded, relative, literal,
    target⟩ := Instruction.target_of_replaced read emitted (Body.instruction.inj kept) jump
  refine ⟨raw, tree, last, latched, v, op, b, d, shape, value, single, decoded, relative, literal,
    ?_⟩
  intro origin
  refine ⟨_, target origin, rfl, ?_⟩
  have bound := (lowWord v).toNat_lt
  rw [addressSpace]
  omega

def jumping : String := ".org 30\nSET PC, next\n:next\n"

theorem replaced_jump_ignores_origin_next :
    let work := (preprocess {} "next" jumping).1
    let slots := (Layout.run {} work.symbols work.statements.reverse).slots
    let p := Program.ofSlots work.symbols slots
    work.origin = 30 ∧ p.words = [0xF9C2] ∧
    ∃ slot listed written sub, slots[0]? = some slot ∧ p.lines[0]? = some listed ∧
      slot.statement.body = .instruction (.basic written (some sub)) ∧ written.op = .set ∧
      ∃ raw tree last latched v op b d, written.b = .expression raw tree last latched ∧
        tree.HasValue (work.symbols.valuation slot.statement.line
          fun key _ => p.labels.lookup key) v ∧
        listed.words.length = 1 ∧ decode? listed.words = some (.basic op .pc b) ∧
        (op = .add ∨ op = .sub) ∧ b.literal? = some d ∧
        ∀ origin, ∃ t, (Decoded.basic op .pc b).target? (origin + listed.position) =
            some (t, .jump) ∧
          t = ((lowWord v).toNat + origin) % addressSpace ∧
          (t = (lowWord v).toNat ↔ addressSpace ∣ origin) := by
  let written : BasicOperation :=
    ⟨.set, .fixed Field.pc "PC", .expression "next" (.leaf "next" false) (.number 31 false) true⟩
  let sub : BasicOperation :=
    ⟨.add, .fixed Field.pc "PC", .expression "(next)-1"
      (.binary "-" (.leaf "next" true) (.number 1 false) false) (.number 30 false) false⟩
  have evaluated :
      let work := (preprocess {} "next" jumping).1
      let settled := Layout.run {} work.symbols work.statements.reverse
      let p := Program.ofSlots work.symbols settled.slots
      (preprocess {} "next" jumping).2 = none ∧ settled.failure = none ∧ work.origin = 30 ∧
        p.words = [0xF9C2] ∧ p.lines.length = 1 ∧
        settled.slots[0]?.map (fun slot => slot.statement.body) =
          some (.instruction (.basic written (some sub))) := by
    decide +kernel
  obtain ⟨complete, settled, origin, words, length, shown⟩ := evaluated
  obtain ⟨slot, here, replaced⟩ := Option.map_eq_some_iff.1 shown
  obtain ⟨listed, line⟩ := List.length_eq_one_iff.1 length
  have first := congrArg (fun lines : List Listed => lines[0]?) line
  exact ⟨origin, words, slot, listed, written, sub, here, first, replaced, rfl,
    replaced_jump_ignores_origin {} "next" _ _ (assemble_of_settled complete settled) rfl 0 slot
      listed written sub here first replaced rfl⟩

-- The jump to 31 goes to 61.
theorem replaced_jump_misses :
    (assemble {} "next" jumping).outcome.toOption.map (fun p => (p.words, p.labels)) =
      some ([0xF9C2], [("NEXT", 31)]) ∧
    (decode? [0xF9C2]).bind (Decoded.target? 30) = some (61, .jump) := by
  refine ⟨?_, ?_⟩ <;> decide +kernel

end WordAsm
