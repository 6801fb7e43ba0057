import WordAsm.Machine.Argument
import WordAsm.Symbol.Lookup

/-!
Registers by name. A text that is a register up to case folding has the name of the register as
its upper case, also where it is written with letters beyond ASCII. So the register that an
operand was read with and the one that its field stands for are the same.
-/
namespace WordAsm

namespace Text

theorem toNat_ofNat (n : Nat) : (Char.ofNat n).toNat = n ∨ (Char.ofNat n).toNat = 0 := by
  by_cases valid : n.isValidChar
  · left
    rw [Char.ofNat, dif_pos valid]
    rfl
  · right
    rw [Char.ofNat, dif_neg valid]
    rfl

theorem fold_below (row : CaseRow) (member : row ∈ foldRows) :
    0x80 ≤ (row.first : Int) + row.shift ∨ row = ⟨0x17F, 0x17F, 1, -268⟩ ∨
      row = ⟨0x212A, 0x212A, 1, -8383⟩ := by
  have checked : ∀ row ∈ foldRows, 0x80 ≤ (row.first : Int) + row.shift ∨
      row = ⟨0x17F, 0x17F, 1, -268⟩ ∨ row = ⟨0x212A, 0x212A, 1, -8383⟩ := by decide +kernel
  exact checked row member

/-- The letters of register names. -/
def registerLetters : List Char := ['A', 'B', 'C', 'X', 'Y', 'Z', 'I', 'J', 'S', 'P', 'O']

theorem upperChar_of_ascii (c d : Char) (ascii : c.toNat < 0x80) (letter : d ∈ registerLetters)
    (same : foldChar c = foldChar d) : upperChar c = d := by
  have checked : ∀ n < 0x80, (registerLetters.all fun d =>
      foldChar (Char.ofNat n) != foldChar d || upperChar (Char.ofNat n) == d) = true := by
    decide +kernel
  have applied := List.all_eq_true.1 (checked c.toNat ascii) d letter
  simpa [Char.ofNat_toNat, same] using applied

theorem upperChar_of_wide (c d : Char) (wide : ¬ c.toNat < 0x80) (letter : d ∈ registerLetters)
    (same : foldChar c = foldChar d) : upperChar c = d := by
  have small : (registerLetters.all fun d => decide (0 < (foldChar d).toNat ∧
      (foldChar d).toNat < 0x80 ∧ (foldChar d = 's' → d = 'S') ∧ foldChar d ≠ 'k')) = true := by
    decide +kernel
  obtain ⟨positive, below, long, kelvin⟩ :=
    of_decide_eq_true (List.all_eq_true.1 small d letter)
  rw [← same] at positive below long kelvin
  have plain : isStray c = false := by
    rw [Bool.eq_false_iff]
    intro apart
    rw [foldChar, if_neg wide, remap, if_pos apart] at below
    exact absurd below (by decide)
  simp only [foldChar, if_neg wide, remap, plain, Bool.false_eq_true, if_false]
    at positive below long kelvin
  split at below
  · rename_i row found
    have covered : row.covers c.toNat = true := by
      have held := List.find?_some found
      exact held
    have bounds : row.first ≤ c.toNat ∧ c.toNat ≤ row.last := by
      simp only [CaseRow.covers, Bool.and_eq_true, decide_eq_true_eq] at covered
      exact covered.1
    simp only [found] at positive long kelvin
    rcases fold_below row (List.mem_of_find?_eq_some found) with high | rfl | rfl
    · rcases toNat_ofNat ((c.toNat : Int) + row.shift).toNat with same | zero
      · rw [same] at below
        omega
      · omega
    · have code : c = Char.ofNat 0x17F := by
        apply Char.toNat_inj.1
        have single : (Char.ofNat 0x17F).toNat = 0x17F := by decide
        simp only at bounds
        omega
      subst code
      rw [long (by decide)]
      decide +kernel
    · have code : c = Char.ofNat 0x212A := by
        apply Char.toNat_inj.1
        have single : (Char.ofNat 0x212A).toNat = 0x212A := by decide
        simp only at bounds
        omega
      subst code
      exact absurd (by decide) kelvin
  · omega

theorem upper_of_fold {cs ds : List Char} (letters : ∀ d ∈ ds, d ∈ registerLetters)
    (same : cs.map foldChar = ds.map foldChar) : cs.map upperChar = ds := by
  induction cs generalizing ds with
  | nil =>
    cases ds with
    | nil => rfl
    | cons d ds => simp at same
  | cons c cs ih =>
    cases ds with
    | nil => simp at same
    | cons d ds =>
      simp only [List.map_cons, List.cons.injEq] at same
      have letter : d ∈ registerLetters := letters d (by simp)
      have head : upperChar c = d := by
        by_cases ascii : c.toNat < 0x80
        · exact upperChar_of_ascii c d ascii letter same.1
        · exact upperChar_of_wide c d ascii letter same.1
      have tail := ih (fun d' member => letters d' (by simp [member])) same.2
      rw [List.map_cons, head, tail]

theorem alike_iff (s t : String) :
    alike s t = true ↔ s.toList.map foldChar = t.toList.map foldChar := by
  simp [alike]

theorem alike_congr {s t : String} (same : alike s t = true) (r : String) :
    alike r s = alike r t := by
  rw [alike_iff] at same
  simp only [alike, same]

end Text

theorem upper_of_register {name text : String} (member : name ∈ registerNames)
    (same : Text.alike name text = true) : Text.upper text = name := by
  have letters : ∀ name ∈ registerNames,
      (name.toList.all Text.registerLetters.contains) = true := by decide +kernel
  have known : ∀ d ∈ name.toList, d ∈ Text.registerLetters := by
    intro d inside
    exact List.contains_iff_mem.1 (List.all_eq_true.1 (letters name member) d inside)
  have folded := (Text.alike_iff name text).1 same
  rw [Text.upper, Text.upper_of_fold known folded.symm, String.ofList_toList]

theorem exists_of_isRegister {text : String} (named : isRegister text = true) :
    ∃ name ∈ registerNames, Text.alike name text = true ∧ Text.upper text = name := by
  obtain ⟨name, member, same⟩ := List.any_eq_true.1 named
  exact ⟨name, member, same, upper_of_register member same⟩

namespace Register

theorem find_congr {s t : String} (same : Text.alike s t = true) : find? s = find? t := by
  simp only [find?, Text.alike_congr same]

theorem isRegister_of_find {text : String} {r : Register} (found : find? text = some r) :
    isRegister text = true := by
  have same := List.find?_some found
  have member : r.name ∈ registerNames := by cases r <;> decide
  exact List.any_eq_true.2 ⟨r.name, member, same⟩

/-- The upper case of a register names the same general register, if any. -/
theorem find_upper {text : String} (named : isRegister text = true) :
    find? (Text.upper text) = find? text := by
  obtain ⟨name, _, same, upper⟩ := exists_of_isRegister named
  rw [upper, find_congr same]

end Register

end WordAsm
