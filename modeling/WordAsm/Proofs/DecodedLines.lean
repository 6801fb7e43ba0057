import WordAsm.Proofs.SteadySources

/-!
The line of a decoded instruction. It assembles to the words that the instruction was decoded from,
unless a literal has a word of its own and would fit into the instruction word.
-/
namespace WordAsm

open Tokenizer (IsSolid isSolid_of_plain)

theorem Argument.isSolid_text (a : Argument) : IsSolid a.text.toList := by
  have opening : IsSolid "[".toList := ⟨by decide, by decide, by decide, by decide⟩
  have closing : IsSolid "]".toList := ⟨by decide, by decide, by decide, by decide⟩
  have plus : IsSolid "+".toList := ⟨by decide, by decide, by decide, by decide⟩
  have literal (w : UInt16) := isSolid_of_plain (Text.isPlain_literal w)
  have register (r : Register) := isSolid_of_plain (Text.isPlain_register r)
  cases a with
  | register r => exact register r
  | indirect r =>
    simp only [text, String.toList_append]
    exact (opening.append (register r)).append closing
  | displaced w r =>
    simp only [text, String.toList_append]
    exact (((opening.append (literal w)).append plus).append (register r)).append closing
  | memory w =>
    simp only [text, String.toList_append]
    exact (opening.append (literal w)).append closing
  | word w => exact literal w
  | short v => exact isSolid_of_plain (Text.isPlain_toString v.toNat)
  | _ => exact ⟨by decide, by decide, by decide, by decide⟩

namespace Decoded

theorem isPlain_mnemonic (d : Decoded) : Text.IsPlain d.mnemonic.toList := by
  have basic (op : BasicOp) : Text.IsPlain op.name.toList := by
    cases op <;> exact ⟨by decide, by decide⟩
  have special (op : SpecialOp) : Text.IsPlain op.name.toList := by
    cases op
    exact ⟨by decide, by decide⟩
  cases d with
  | basic op a b => exact basic op
  | special op a => exact special op
  | raw w => exact Entry.isPlain_dat

theorem isSolid_operandTexts (d : Decoded) : ∀ text ∈ d.operandTexts, IsSolid text.toList := by
  intro text member
  cases d with
  | raw w =>
    rw [List.mem_singleton.1 member]
    exact isSolid_of_plain (Text.isPlain_literal w)
  | _ =>
    obtain ⟨a, -, rfl⟩ := List.mem_map.1 member
    exact a.isSolid_text

theorem writes_line (d : Decoded) :
    Tokenizer.Writes [d.mnemonic :: d.operandTexts]
      ((joinTokens (d.mnemonic :: d.operandTexts)).toList ++ ['\n']) := by
  have given : d.operandTexts ≠ [] := by cases d <;> simp [operandTexts, arguments]
  have written := Tokenizer.Writes.statement (isSolid_of_plain d.isPlain_mnemonic).isToken given
    (fun text member => (d.isSolid_operandTexts text member).isToken)
    Tokenizer.Scan.isBreak_newline 0 0
  obtain ⟨text, texts, operands⟩ := List.exists_cons_of_ne_nil given
  rw [operands] at written ⊢
  simp only [joinTokens, String.toList_append, List.append_assoc]
  exact written

theorem isSteady_line {d : Decoded} (shortest : ∀ a ∈ d.arguments, a.isShortest = true) :
    Entry.IsSteady false (.statement d.mnemonic d.operandTexts d.words) := by
  have plain := d.isPlain_mnemonic
  cases d with
  | raw w => exact Entry.isSteady_literals [w] false
  | basic op a b =>
    refine ⟨plain, .inr (by simp [operandTexts, arguments]), ?_⟩
    intro s line tokens
    obtain ⟨i, read, shown⟩ := Instruction.read_shows (by simp) tokens
    exact ⟨_, Statement.read_instruction (m := .basic op) (Line.first_of_tokens tokens) read,
      rfl, _,
      shown, shortest, rfl⟩
  | special op a =>
    refine ⟨plain, .inr (by simp [operandTexts, arguments]), ?_⟩
    intro s line tokens
    obtain ⟨i, read, shown⟩ := Instruction.read_shows (by simp) tokens
    exact ⟨_, Statement.read_instruction (m := .special op) (Line.first_of_tokens tokens) read, rfl,
      _, shown, shortest, rfl⟩

theorem assemble_line {o : Options} {d : Decoded} (plain : o.optimize = false)
    (enough : 3 ≤ o.lineLimit) (shortest : ∀ a ∈ d.arguments, a.isShortest = true)
    (file : String) :
    ∃ program,
      (assemble o file (joinTokens (d.mnemonic :: d.operandTexts))).outcome = .ok program ∧
      program.words = d.words := by
  have steady := isSteady_line shortest
  rw [← plain] at steady
  obtain ⟨program, assembled, words⟩ := @assemble_entries o file _
    [.statement d.mnemonic d.operandTexts d.words] (d.writes_line.tokenize_unended file)
    (by simpa using steady) List.nodup_nil enough
  refine ⟨program, assembled, words.trans ?_⟩
  exact List.flatten_singleton

end Decoded

/-- The line of a decoded instruction assembles to the words that it was decoded from. -/
theorem decoded_line_assembles (o : Options) (file : String) (plain : o.optimize = false)
    (ws : List UInt16) (d : Decoded) (decoded : decode? ws = some d)
    (long : ∀ v, .word v ∈ d.arguments → Field.maxLiteral < v) :
    ∃ enough ≤ 3, ∀ limit ≥ enough, ∃ program,
      (assemble { o with lineLimit := limit } file
        (joinTokens (d.mnemonic :: d.operandTexts))).outcome = .ok program ∧
      program.words = ws.take d.size := by
  cases ws with
  | nil => cases decoded
  | cons w rest =>
    cases decoded
    have shortest : ∀ a ∈ (Decoded.ofWords w rest).arguments, a.isShortest = true := by
      intro a member
      have fits := (Decoded.ofWords_ok w rest).1 a member
      cases a with
      | word v => exact decide_eq_true (long v member)
      | short v => exact fits
      | _ => rfl
    rw [Decoded.words_ofWords]
    refine ⟨3, Nat.le_refl 3, ?_⟩
    intro limit enough
    exact @Decoded.assemble_line { o with lineLimit := limit } _ plain enough shortest file

-- With its last word the instruction is whole; without it its first word is data.
theorem decoded_line_assembles_truncated :
    let o : Options := { optimize := false }
    let whole : Decoded := .basic .ifg (.displaced 0x1000 .j) (.word 0x20)
    joinTokens (whole.mnemonic :: whole.operandTexts) = "IFG [0x1000+J], 0x0020" ∧
    (∃ program,
      (assemble o "line" (joinTokens (whole.mnemonic :: whole.operandTexts))).outcome =
        .ok program ∧ program.words = [0x7D7E, 0x1000, 0x20]) ∧
    joinTokens (Decoded.mnemonic (.raw 0x7D7E) :: Decoded.operandTexts (.raw 0x7D7E)) =
      "DAT 0x7D7E" ∧
    ∃ program, (assemble o "line" (joinTokens
        (Decoded.mnemonic (.raw 0x7D7E) :: Decoded.operandTexts (.raw 0x7D7E)))).outcome =
        .ok program ∧ program.words = [0x7D7E] := by
  intro o whole
  have long : ∀ v, .word v ∈ whole.arguments → Field.maxLiteral < v := by
    intro v member
    simp only [whole, Decoded.arguments, List.mem_cons, reduceCtorEq, Argument.word.injEq,
      List.not_mem_nil, or_false, false_or] at member
    rw [member]
    decide
  obtain ⟨_, few, assembles⟩ := decoded_line_assembles o "line" rfl
    [0x7D7E, 0x1000, 0x20, 0x8401] whole (by decide) long
  obtain ⟨_, few', assembles'⟩ := decoded_line_assembles o "line" rfl [0x7D7E, 0x1000]
    (.raw 0x7D7E) (by decide) (by simp [Decoded.arguments])
  have enough : 3 ≤ o.lineLimit := by decide
  exact ⟨by decide +kernel, assembles o.lineLimit (Nat.le_trans few enough), by decide +kernel,
    assembles' o.lineLimit (Nat.le_trans few' enough)⟩

end WordAsm
