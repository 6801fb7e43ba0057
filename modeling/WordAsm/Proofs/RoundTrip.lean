import Mathlib
import WordAsm.Proofs.DisassemblyLayout

/-!
Disassembled images as sources. The source of an image can be assembled, and gives the image unless
a short call or jump goes forward to a label that seems to be out of its reach once the provisional
pass has made room for later labels.
-/
namespace WordAsm

open Disassembly (Chunk Plan)

def longestJump : List UInt16 := 0xFDC1 :: List.replicate 30 0x2E ++ [1]

def longestJumpText : String :=
  "    SET      PC, loc_001F\n" ++
  ":string1\n" ++
  "    DAT      \"..............................\"\n" ++
  ":loc_001F\n" ++
  "    SET      A, A\n"

-- The label of the jump is first taken to be far away, which moves it to the address 32, and the
-- jump keeps its second word for it.
theorem longest_jump_comes_back_longer :
    (disassemble longestJump).toOption.map (·.1) = some longestJumpText ∧
    (assemble { optimize := false, maxPasses := 100 } "main" longestJumpText).outcome.toOption.map
        Program.words = some (0x7DC1 :: 0x20 :: List.replicate 30 0x2E ++ [1]) := by
  constructor
  · cbv
  · decide +kernel

namespace Disassembly.Plan

theorem disassemble_eq {words : List UInt16} (fits : words.length ≤ addressSpace) :
    ∃ notes, disassemble words = .ok ((ofWords words).text, notes) := by
  rw [disassemble, if_neg (Nat.not_lt.2 fits)]
  cases words with
  | nil => exact ⟨[], rfl⟩
  | cons w rest => exact ⟨_, rfl⟩

theorem flatten_ofWords (words : List UInt16) : (ofWords words).rows.flatten = words := by
  rw [rows, flatten_chunks, (cuts_chunks words).covers, List.drop_zero]

theorem length_lines (words : List UInt16) : (ofWords words).lines.length ≤ 2 * words.length := by
  have most := (ofWords words).length_entries (cuts_chunks words).follow 1
  rwa [(cuts_chunks words).covers] at most

end Disassembly.Plan

/-- The source of an image whose long literals are all needed can be assembled. If no label is moved
beyond the address space, it gives the image just if every short call or jump to a later label still
reaches it with the longer instructions from there on. -/
theorem disassembly_comes_back (o : Options) (file : String) (plain : o.optimize = false)
    (words : List UInt16) (fits : words.length ≤ addressSpace)
    (long : ∀ a ws d v, .code a ws d ∈ (Plan.ofWords words).chunks → .word v ∈ d.arguments →
      Field.maxLiteral < v)
    (passes : 2 * words.length + 3 ≤ o.passes) :
    let p := Plan.ofWords words
    ∃ text notes, disassemble words = .ok (text, notes) ∧
      ∃ enough ≤ 2 * words.length + 2, ∀ limit ≥ enough, ∃ program,
        (assemble { o with lineLimit := limit } file text).outcome = .ok program ∧
        ((∀ t, (p.label? t).isSome = true → t + p.widened.countP (· < t) < addressSpace) →
          (program.words = words ↔ ∀ a ws d t, .code a ws d ∈ p.chunks →
            p.shortTarget? d = some t → a < t →
            t + p.widened.countP (fun w => a ≤ w && w < t) ≤ Field.maxLiteral.toNat)) := by
  intro p
  obtain ⟨notes, shown⟩ := Plan.disassemble_eq fits
  have images := Plan.images_ofWords fits long
  have few : p.lines.length ≤ 2 * words.length := Plan.length_lines words
  have fewer : (p.lines.filter Entry.isStatement).length ≤ words.length := by
    have least := Layout.length_le_flatten images.filled
    rw [Plan.flatten_ofWords] at least
    rwa [Plan.lines, p.length_statements 1 p.chunks]
  refine ⟨p.text, notes, shown, 2 * words.length + 2, Nat.le_refl _, ?_⟩
  intro limit enough
  obtain ⟨program, assembled, iff⟩ := @assemble_image { o with lineLimit := limit } plain file
    p.text p.lines ((p.writes_entries 1 p.chunks).tokenize file)
    (Plan.isReadable_entries (fun _ _ _ => Plan.isShortest_code long) 1)
    (p.nodup_entries (Plan.cuts_chunks words).follow 1)
    (Nat.le_trans (Nat.add_le_add_right few 2) enough)
    (Nat.le_trans (Nat.add_le_add_right (Nat.mul_le_mul_left 2 fewer) 3) passes)
    (Plan.defined_lines words) p.rows images
  refine ⟨program, assembled, fun room => ?_⟩
  have back := iff p.widened (Plan.widens_ofWords fits long room)
  rw [Plan.flatten_ofWords] at back
  rw [back]
  constructor
  · intro stays a ws d t member short later
    obtain ⟨i, kind, j, here, rfl, rfl, reached⟩ := Plan.layout_short long member short
    exact stays i kind j here
      ((images.offset_lt_iff (List.getElem?_eq_some_iff.1 here).1).1 later) reached
  · intro stays i kind j here later reached
    obtain ⟨ws, d, member, short⟩ := Plan.short_layout long here reached
    exact stays _ ws d _ member short
      ((images.offset_lt_iff (List.getElem?_eq_some_iff.1 here).1).2 later)

def nextLongestJump : List UInt16 := 0xF9C1 :: List.replicate 29 0x2E ++ [0x7C01, 0x1234]

theorem code_nextLongestJump {a : Nat} {ws : List UInt16} {d : Decoded}
    (member : .code a ws d ∈ (Plan.ofWords nextLongestJump).chunks) :
    a = 0 ∧ d = .basic .set .pc (.short 30) ∨
      a = 30 ∧ d = .basic .set (.register .a) (.word 0x1234) := by
  have chunks : (Plan.ofWords nextLongestJump).chunks =
      [.code 0 [0xF9C1] (.basic .set .pc (.short 30)), .data 1 (List.replicate 29 0x2E),
        .code 30 [0x7C01, 0x1234] (.basic .set (.register .a) (.word 0x1234))] := by
    cbv
  simp only [chunks, List.mem_cons, Chunk.code.injEq, reduceCtorEq, List.not_mem_nil, false_or,
    or_false] at member
  exact member.imp (fun h => ⟨h.1, h.2.2⟩) fun h => ⟨h.1, h.2.2⟩

-- The label of a jump to 30 is moved to the address 31, which is still in reach.
theorem next_longest_jump_comes_back :
    (∀ a ws d v, .code a ws d ∈ (Plan.ofWords nextLongestJump).chunks → .word v ∈ d.arguments →
      Field.maxLiteral < v) ∧
    (∀ t, ((Plan.ofWords nextLongestJump).label? t).isSome = true →
      t + (Plan.ofWords nextLongestJump).widened.countP (· < t) < addressSpace) ∧
    ∃ text notes program, disassemble nextLongestJump = .ok (text, notes) ∧
      (assemble { optimize := false, maxPasses := 100 } "main" text).outcome = .ok program ∧
      program.words = nextLongestJump := by
  have widened : (Plan.ofWords nextLongestJump).widened = [0] := by cbv
  have long (a : Nat) (ws : List UInt16) (d : Decoded) (v : UInt16)
      (member : .code a ws d ∈ (Plan.ofWords nextLongestJump).chunks)
      (inside : .word v ∈ d.arguments) : Field.maxLiteral < v := by
    obtain ⟨-, rfl⟩ | ⟨-, rfl⟩ := code_nextLongestJump member
    · simp [Decoded.arguments] at inside
    · obtain rfl : v = 0x1234 := by simpa [Decoded.arguments] using inside
      decide
  have room (t : Nat) (shown : ((Plan.ofWords nextLongestJump).label? t).isSome = true) :
      t + (Plan.ofWords nextLongestJump).widened.countP (· < t) < addressSpace := by
    obtain ⟨name, label⟩ := Option.isSome_iff_exists.1 shown
    obtain ⟨kind, found, -⟩ := Plan.label_cases label
    obtain ⟨ws, d, member⟩ := Plan.label_chunk found
    rw [widened]
    obtain ⟨rfl, -⟩ | ⟨rfl, -⟩ := code_nextLongestJump member <;> decide
  obtain ⟨text, notes, shown, enough, few, assembles⟩ :=
    disassembly_comes_back { optimize := false, maxPasses := 100 } "main" rfl nextLongestJump
      (by decide) long (by decide)
  obtain ⟨program, assembled, back⟩ := assembles (1 <<< 62) (Nat.le_trans few (by decide))
  refine ⟨long, room, text, notes, program, shown, assembled, (back room).2 ?_⟩
  intro a ws d t member short later
  rw [widened]
  obtain ⟨rfl, rfl⟩ | ⟨-, rfl⟩ := code_nextLongestJump member
  · obtain ⟨-, target⟩ := Option.ite_none_right_eq_some.1 short
    obtain rfl := Option.some.inj target
    decide
  · cases short

end WordAsm
