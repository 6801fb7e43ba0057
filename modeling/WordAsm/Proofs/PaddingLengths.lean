import Mathlib.Order.Bounds.Basic
import WordAsm.Proofs.LayoutConvergence

/-!
Lengths of padding. In a finalizing pass padding has the least number of words that it asks for
and that is not below its length in the pass before. The pass before the first finalizing one is
the provisional pass, so that padding may stay longer than it has to be because labels were not
known or statements were longer then.
-/
namespace WordAsm

namespace Align

theorem gap_of_dvd {boundary position n : Nat} (whole : boundary ∣ position + n) :
    gap boundary position = n % boundary := by
  obtain ⟨k, parts⟩ := whole
  have negative : -(position : Int) = n - boundary * k := by
    have parts' := congrArg Int.ofNat parts
    simp only [Int.ofNat_eq_natCast, Int.natCast_add, Int.natCast_mul] at parts'
    omega
  rw [gap, negative, Int.sub_mul_emod_self_left, ← Int.natCast_emod, Int.toNat_natCast]

section

variable {boundary : Nat} (positive : 0 < boundary)

include positive

theorem dvd_add_sub (position : Nat) : boundary ∣ position + (boundary - position % boundary) := by
  have below := Nat.mod_lt position positive
  have parts := Nat.div_add_mod position boundary
  refine ⟨position / boundary + 1, ?_⟩
  rw [Nat.mul_succ]
  omega

theorem gap_eq (position : Nat) :
    gap boundary position = (boundary - position % boundary) % boundary :=
  gap_of_dvd (dvd_add_sub positive position)

theorem dvd_add_gap (position : Nat) : boundary ∣ position + gap boundary position := by
  have whole := Nat.mod_eq_zero_of_dvd (dvd_add_sub positive position)
  rw [gap_eq positive, Nat.dvd_iff_mod_eq_zero, Nat.add_mod_mod, whole]

theorem isLeast_atLeast (position size : Nat) :
    IsLeast {n | size ≤ n ∧ boundary ∣ position + n}
      (atLeast boundary (gap boundary position) size) := by
  refine ⟨⟨le_atLeast positive _ _, ?_⟩, ?_⟩
  · rw [atLeast, ← Nat.add_assoc]
    exact Nat.dvd_add (dvd_add_gap positive position) (Nat.dvd_mul_left _ _)
  · rintro n ⟨long, whole⟩
    have parts := Nat.div_add_mod n boundary
    rw [← gap_of_dvd whole, Nat.mul_comm] at parts
    have rounds :
        (size - gap boundary position + boundary - 1) / boundary ≤ n / boundary := by
      refine Nat.le_of_lt_succ ((Nat.div_lt_iff_lt_mul positive).2 ?_)
      rw [Nat.succ_mul]
      omega
    have spanned := Nat.mul_le_mul_right boundary rounds
    rw [atLeast]
    omega

theorem atLeast_eq_iff (n size : Nat) : atLeast boundary n size = n ↔ size ≤ n := by
  constructor
  · intro same
    have long := le_atLeast positive n size
    rwa [same] at long
  · intro short
    have rounds : (size - n + boundary - 1) / boundary = 0 := Nat.div_eq_of_lt (by omega)
    rw [atLeast, rounds, Nat.zero_mul, Nat.add_zero]

theorem size_final {ctx : Context} (final : ctx.finalize = true) (old : Option Nat)
    (position : Int) :
    size ctx old boundary position = atLeast boundary (gap boundary position) (old.getD 0) := by
  cases old with
  | none => exact ((atLeast_eq_iff positive _ _).2 (Nat.zero_le _)).symm
  | some least => simp only [size, final, if_true, Option.getD_some]

end

end Align

/-- The lengths of the statements after the provisional pass and so many finalizing passes. -/
def Layout.lengths? (o : Options) (file source : String) (n : Nat) : Option (List Nat) :=
  let work := (preprocess o file source).1
  (after o.optimize work.symbols work.statements.reverse n).map fun slots => slots.map Slot.size

theorem Layout.exists_of_lengths {o : Options} {file source : String} {n : Nat}
    {sizes : List Nat} (given : lengths? o file source n = some sizes) :
    ∃ slots, after o.optimize (preprocess o file source).1.symbols
      (preprocess o file source).1.statements.reverse n = some slots ∧
      slots.map Slot.size = sizes :=
  Option.map_eq_some_iff.1 given

/-- In every finalizing pass padding has the least number of words that is enough for it and not
below its length in the pass before, which is the provisional one for `n = 0`. So it has the length
that it asks for exactly if it was not longer then. -/
theorem padding_keeps_earlier_length (o : Options) (file source : String) (n : Nat)
    (slots slots' : List Slot) :
    let work := (preprocess o file source).1
    let statements := work.statements.reverse
    Layout.after o.optimize work.symbols statements n = some slots →
    Layout.after o.optimize work.symbols statements (n + 1) = some slots' →
    ∀ i slot slot', slots[i]? = some slot → slots'[i]? = some slot' →
      let position := Layout.total i slots'
      let ctx : Context := ⟨work.symbols, Layout.position (Layout.between slots slots' i), true⟩
      let line := slot.statement.line
      (∀ f, slot.statement.body = .fill f → ∃ length g,
        ctx.evaluate line f.length = .ok (.number length g) ∧ 0 ≤ length ∧
        slot'.size = max length.toInt.toNat slot.size) ∧
      ∀ a, slot.statement.body = .align a → ∃ boundary g b,
        ctx.evaluate line a.boundary = .ok (.number boundary g) ∧ boundary.toInt = (b : Nat) ∧
        0 < b ∧ IsLeast {m | slot.size ≤ m ∧ b ∣ position + m} slot'.size ∧
        (slot'.size = (b - position % b) % b ↔ slot.size ≤ (b - position % b) % b) := by
  intro work statements reached next i slot slot' here there position ctx line
  obtain ⟨slots₀, reached', passes⟩ := Layout.passes_of_after next
  rw [reached] at reached'
  cases reached'
  obtain ⟨words, emitted, left⟩ := passes.emitted here
  rw [there, Option.some.injEq] at left
  have size : slot'.size = words.length := by simp [left, Slot.size]
  constructor
  · intro f body
    simp only [Layout.emission, Statement.emit, body] at emitted
    rw [size]
    exact Fill.length_emit rfl emitted
  · intro a body
    simp only [Layout.emission, Statement.emit, body] at emitted
    obtain ⟨boundary, g, evaluated, positive, length⟩ := Align.length_emit rfl emitted
    rw [Align.size_final positive rfl] at length
    refine ⟨boundary, g, boundary.toInt.toNat, evaluated, by omega, positive, ?_, ?_⟩
    · rw [size, length]
      exact Align.isLeast_atLeast positive _ _
    · rw [size, length, ← Align.gap_eq positive]
      exact Align.atLeast_eq_iff positive _ _

-- Provisionally the first line has two words, so that eight words are filled and two go on to the
-- boundary; in the pass after it four are asked for, eight are kept and three go on.
theorem padding_keeps_earlier_length_both :
    let source := "SET A, end\n:here\n.fill here*4\n.align 4\n:end"
    let work := (preprocess {} "both" source).1
    let statements := work.statements.reverse
    ∃ slots slots', Layout.after true work.symbols statements 0 = some slots ∧
      Layout.after true work.symbols statements 1 = some slots' ∧
      slots.map Slot.size = [2, 8, 2] ∧ slots'.map Slot.size = [1, 8, 3] ∧
      ∀ i slot slot', slots[i]? = some slot → slots'[i]? = some slot' →
        let position := Layout.total i slots'
        let ctx : Context := ⟨work.symbols, Layout.position (Layout.between slots slots' i), true⟩
        let line := slot.statement.line
        (∀ f, slot.statement.body = .fill f → ∃ length g,
          ctx.evaluate line f.length = .ok (.number length g) ∧ 0 ≤ length ∧
          slot'.size = max length.toInt.toNat slot.size) ∧
        ∀ a, slot.statement.body = .align a → ∃ boundary g b,
          ctx.evaluate line a.boundary = .ok (.number boundary g) ∧ boundary.toInt = (b : Nat) ∧
          0 < b ∧ IsLeast {m | slot.size ≤ m ∧ b ∣ position + m} slot'.size ∧
          (slot'.size = (b - position % b) % b ↔ slot.size ≤ (b - position % b) % b) := by
  intro source work statements
  have lengths : Layout.lengths? {} "both" source 0 = some [2, 8, 2] ∧
      Layout.lengths? {} "both" source 1 = some [1, 8, 3] := by decide +kernel
  obtain ⟨slots, reached, sizes⟩ := Layout.exists_of_lengths lengths.1
  obtain ⟨slots', next, sizes'⟩ := Layout.exists_of_lengths lengths.2
  exact ⟨slots, slots', reached, next, sizes, sizes',
    padding_keeps_earlier_length {} "both" source 0 slots slots' reached next⟩

-- In the first finalizing pass four words follow where the boundary has been reached, and eight
-- words are filled where four are asked for.
theorem provisional_lengths_are_kept :
    let aligned := "SET A, end\nDAT 1, 2, 3\n.align 4\n:end"
    let filled := "SET A, end\n:here\n.fill here*4\n:end"
    Layout.lengths? {} "aligned" aligned 1 = some [1, 3, 4] ∧ Align.gap 4 (1 + 3) = 0 ∧
    (assemble {} "aligned" aligned).outcome.toOption.map Program.words =
      some [0xA001, 1, 2, 3, 0, 0, 0, 0] ∧
    Layout.lengths? {} "filled" filled 1 = some [1, 8] := by
  refine ⟨?_, ?_, ?_, ?_⟩ <;> decide +kernel

end WordAsm
