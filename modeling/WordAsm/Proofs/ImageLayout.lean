import WordAsm.Proofs.LayoutLineNumbers
import WordAsm.Proofs.TransferLayout

/-!
Layout beside an image that holds a row of words for each statement. The provisional pass makes some
rows wider than they are in the image: calls and jumps to a later label, for which it takes a word
of its own, and those to an earlier one that has moved out of the reach of a literal. The first
finalizing pass sees later labels where these wider rows put them, and what it gives a word of its
own then keeps it. So the image comes back just if no later label that a literal reaches in the
image is out of reach there.
-/
namespace WordAsm

theorem Argument.ofPosition_long {n : Nat} (long : Field.maxLiteral.toNat < n % addressSpace)
    (latched : Bool) : ofPosition latched (some n) = .word (.ofNat n) := by
  have large : ¬ UInt16.ofNat n ≤ Field.maxLiteral := by
    rw [UInt16.le_iff_toNat_le, UInt16.toNat_ofNat']
    exact Nat.not_le.2 long
  simp [ofPosition, large]

theorem Argument.isWord_latched (position : Option Nat) :
    (ofPosition true position).isWord = true := by
  cases position <;> rfl

theorem Argument.code_ofPosition_lt (latched : Bool) (position : Option Nat) :
    (ofPosition latched position).code.toNat < 64 := by
  cases position with
  | none => exact (by decide : Field.nextWord.toNat < 64)
  | some n =>
    simp only [ofPosition]
    split
    · rename_i short
      have small : UInt16.ofNat n ≤ Field.maxLiteral := by
        simpa using (Bool.and_eq_true_iff.1 short).2
      have bound : (UInt16.ofNat n).toNat ≤ 31 := UInt16.le_iff_toNat_le.1 small
      have literal : Field.literal.toNat = 32 := rfl
      rw [code, UInt16.toNat_add, literal]
      omega
    · exact (by decide : Field.nextWord.toNat < 64)

namespace Layout

/-! Rows. -/

section

variable {image : List (List UInt16)} {i j : Nat}

/-- The address of a row. -/
def offset (image : List (List UInt16)) (i : Nat) : Nat := (image.take i).flatten.length

theorem offset_succ {row : List UInt16} (found : image[i]? = some row) :
    offset image (i + 1) = offset image i + row.length := by
  rw [offset, offset, List.take_add_one, found]
  simp

theorem offset_le (before : i ≤ j) : offset image i ≤ offset image j := by
  obtain ⟨k, rfl⟩ := Nat.exists_eq_add_of_le before
  simp [offset, List.take_add]

theorem offset_lt (filled : ∀ row ∈ image, row ≠ []) (before : i < j)
    (inside : i < image.length) : offset image i < offset image j := by
  have next := offset_succ (List.getElem?_eq_getElem inside)
  have some_ := List.length_pos_iff.2 (filled _ (List.getElem_mem inside))
  have rest : offset image (i + 1) ≤ offset image j := offset_le before
  omega

theorem length_le_flatten (filled : ∀ row ∈ image, row ≠ []) :
    image.length ≤ image.flatten.length := by
  induction image with
  | nil => exact Nat.le_refl _
  | cons row rest ih =>
    obtain ⟨here, later⟩ := List.forall_mem_cons.1 filled
    have some_ := List.length_pos_iff.2 here
    have behind := ih later
    rw [List.flatten_cons, List.length_append, List.length_cons]
    omega

end

/-! Numbers below a bound. -/

theorem countP_split {wide : List Nat} {p q r : Nat → Bool}
    (split : ∀ w ∈ wide, p w = (q w || r w) ∧ (q w && r w) = false) :
    wide.countP p = wide.countP q + wide.countP r := by
  induction wide with
  | nil => rfl
  | cons w wide ih =>
    have rest := ih fun w' member => split w' (List.mem_cons_of_mem _ member)
    obtain ⟨either, both⟩ := split w List.mem_cons_self
    rw [List.countP_cons, List.countP_cons, List.countP_cons, rest, either]
    cases found : q w <;> cases found' : r w <;> simp [found, found'] at both ⊢ <;> omega

theorem countP_lt_succ {wide : List Nat} {a b : Nat} (distinct : wide.Nodup)
    (apart : ∀ w ∈ wide, w < b ↔ w < a ∨ w = a) :
    wide.countP (· < b) = wide.countP (· < a) + if a ∈ wide then 1 else 0 := by
  rw [← distinct.count]
  refine countP_split fun w member => ⟨?_, ?_⟩
  · rw [Bool.eq_iff_iff]
    simpa using apart w member
  · simp only [Bool.and_eq_false_iff, decide_eq_false_iff_not, beq_eq_false_iff_ne]
    omega

theorem countP_between {a b : Nat} (order : a ≤ b) (wide : List Nat) :
    wide.countP (· < b) = wide.countP (· < a) + wide.countP (fun w => a ≤ w && w < b) := by
  refine countP_split fun w _ => ⟨?_, ?_⟩
  · rw [Bool.eq_iff_iff]
    simp
    omega
  · simp
    omega

/-! Images of parts. -/

/-- The image holds each part in a row, with the addresses of rows for labels. -/
structure Images (parts : List Part) (image : List (List UInt16)) : Prop where
  closed : Closed parts
  filled : ∀ row ∈ image, row ≠ []
  encoded : parts.map (Part.encode false fun j => some (offset image j)) = image
  fits : image.flatten.length ≤ addressSpace

/-- The addresses of rows that the provisional pass makes wider. -/
structure Widens (parts : List Part) (image : List (List UInt16)) (wide : List Nat) : Prop where
  distinct : wide.Nodup
  placed : ∀ w ∈ wide, ∃ i kind j, parts[i]? = some (.transfer kind j) ∧
    offset image j ≤ Field.maxLiteral.toNat ∧ w = offset image i
  chosen : ∀ {i kind j}, parts[i]? = some (.transfer kind j) →
    offset image j ≤ Field.maxLiteral.toNat → (offset image i ∈ wide ↔
      i < j ∨ Field.maxLiteral.toNat < offset image j + wide.countP (· < offset image j))
  room : ∀ {i : Nat} {kind j}, parts[i]? = some (.transfer kind j) →
    offset image j + wide.countP (· < offset image j) < addressSpace

def Loose (parts : List Part) (image : List (List UInt16)) (slots : List Slot) : Prop :=
  ∀ (i : Nat) (kind j) (slot : Slot), parts[i]? = some (.transfer kind j) →
    offset image j ≤ Field.maxLiteral.toNat → slots[i]? = some slot →
      slot.statement.isLatched = false

/-- A later label that the row goes to is as far as it is in the image, if the row is where it is
in the image. -/
def Near (parts : List Part) (image : List (List UInt16)) (slots : List Slot) (i : Nat) : Prop :=
  ∀ kind j, parts[i]? = some (.transfer kind j) → i < j →
    (Field.maxLiteral.toNat < (offset image i + (total j slots - total i slots)) % addressSpace ↔
      Field.maxLiteral.toNat < offset image j)

namespace Images

variable {parts : List Part} {image : List (List UInt16)} (images : Images parts image)

include images

theorem length : parts.length = image.length := by
  have lengths := congrArg List.length images.encoded
  rwa [List.length_map] at lengths

theorem row {i : Nat} {part : Part} (here : parts[i]? = some part) :
    image[i]? = some (part.encode false fun j => some (offset image j)) := by
  have entries := congrArg (·[i]?) images.encoded
  simpa only [List.getElem?_map, here, Option.map_some] using entries.symm

theorem offset_lt_iff {i j : Nat} (inside : i < parts.length) :
    offset image i < offset image j ↔ i < j := by
  refine ⟨fun order => ?_, fun order => offset_lt images.filled order (images.length ▸ inside)⟩
  exact Nat.lt_of_not_le fun back => Nat.not_le.2 order (offset_le back)

theorem offset_bound {j : Nat} (inside : j < parts.length) :
    offset image j < image.flatten.length := by
  have next : offset image j < offset image image.length :=
    offset_lt images.filled (images.length ▸ inside) (images.length ▸ inside)
  rwa [offset, offset, List.take_length] at next

variable {i j : Nat} {kind : Transfer} (here : parts[i]? = some (.transfer kind j))

include here

theorem target_bound : offset image j < image.flatten.length :=
  images.offset_bound (images.closed kind j (List.mem_of_getElem? here))

theorem length_row {row : List UInt16} (found : image[i]? = some row) :
    row.length = if Field.maxLiteral.toNat < offset image j then 2 else 1 := by
  have bound := Nat.lt_of_lt_of_le (images.target_bound here) images.fits
  rw [images.row here] at found
  cases found
  rw [Part.encode, Transfer.length_decoded, Argument.isWord_some, Nat.mod_eq_of_lt bound]
  simp

end Images

theorem Hold.found {symbols : Symbols} {parts : List Part} {finalize : Bool}
    {slots slots' : List Slot} (hold : Hold symbols parts slots)
    (passes : Passes false symbols finalize slots slots') {i : Nat} {part : Part}
    (here : parts[i]? = some part) :
    ∃ slot slot', slots[i]? = some slot ∧ slots'[i]? = some slot' := by
  have bound : i < slots.length := hold.length_eq ▸ (List.getElem?_eq_some_iff.1 here).1
  have bound' : i < slots'.length := passes.length ▸ bound
  exact ⟨_, _, List.getElem?_eq_getElem bound, List.getElem?_eq_getElem bound'⟩

/-! A finalizing pass. -/

section

variable {symbols : Symbols} {parts : List Part} {image : List (List UInt16)}
  {slots slots' : List Slot} (images : Images parts image) (hold : Hold symbols parts slots)
  (known : ∀ slot ∈ slots, slot.words.isSome = true)
  (passes : Passes false symbols true slots slots')

include images hold known passes

theorem Images.position_between {i j : Nat} {kind : Transfer}
    (here : parts[i]? = some (.transfer kind j)) :
    position (between slots slots' i) j = some (if j ≤ i then total j slots' else
      total i slots' + (total j slots - total i slots)) := by
  have bound : i < slots.length := hold.length_eq ▸ (List.getElem?_eq_some_iff.1 here).1
  have inside : i ≤ slots'.length := passes.length ▸ Nat.le_of_lt bound
  have length : (between slots slots' i).length = slots.length := by
    have same := passes.length
    simp only [between, List.length_append, List.length_take, List.length_drop]
    omega
  have target : j ≤ (between slots slots' i).length := by
    rw [length, ← hold.length_eq]
    exact Nat.le_of_lt (images.closed kind j (List.mem_of_getElem? here))
  rw [position_of_known (known_between known (known_of_passes passes) i) target,
    total_between inside]

variable (loose : Loose parts image slots)

include loose

theorem Images.isWord_between {i j : Nat} {kind : Transfer} {slot : Slot}
    (here : parts[i]? = some (.transfer kind j)) (found : slots[i]? = some slot)
    (near : Near parts image slots i) (before : ∀ k ≤ i, total k slots' = offset image k) :
    (Argument.ofPosition slot.statement.isLatched (position (between slots slots' i) j)).isWord =
      decide (Field.maxLiteral.toNat < offset image j) := by
  have bound := Nat.lt_of_lt_of_le (images.target_bound here) images.fits
  have seen : Field.maxLiteral.toNat < (if j ≤ i then total j slots' else
      total i slots' + (total j slots - total i slots)) % addressSpace ↔
      Field.maxLiteral.toNat < offset image j := by
    split
    · rename_i earlier
      rw [before j earlier, Nat.mod_eq_of_lt bound]
    · rename_i later
      rw [before i (Nat.le_refl i)]
      exact near kind j here (Nat.lt_of_not_le later)
  rw [images.position_between hold known passes here, Argument.isWord_some]
  simp only [seen]
  by_cases long : Field.maxLiteral.toNat < offset image j
  · simp [long]
  · rw [loose _ _ _ _ here (Nat.le_of_not_lt long) found, Bool.false_or]

theorem Images.total_eq {n : Nat} (inside : n ≤ parts.length)
    (near : ∀ i < n, Near parts image slots i) {k : Nat} (bound : k ≤ n) :
    total k slots' = offset image k := by
  refine total_eq_of_sizes rfl (fun m short before => ?_) bound
  obtain ⟨part, here⟩ : ∃ part, parts[m]? = some part :=
    ⟨_, List.getElem?_eq_getElem (Nat.lt_of_lt_of_le short inside)⟩
  obtain ⟨slot, slot', found, found'⟩ := hold.found passes here
  refine ⟨slot', found', ?_⟩
  rw [offset_succ (images.row here), Slot.size,
    (hold.emitted images.closed (fun _ => known) passes here found found').1, Option.map_some,
    Option.getD_some]
  cases part with
  | words ws => rfl
  | transfer kind j =>
    rw [images.length_row here (images.row here), Part.encode, Transfer.length_decoded,
      images.isWord_between hold known passes loose here found (near m short) before]
    simp

theorem Images.isLatched_of_far {i j : Nat} {kind : Transfer} {slot' : Slot}
    (here : parts[i]? = some (.transfer kind j)) (later : i < j)
    (near : ∀ k < i, Near parts image slots k)
    (far : Field.maxLiteral.toNat <
      (offset image i + (total j slots - total i slots)) % addressSpace)
    (found' : slots'[i]? = some slot') : slot'.statement.isLatched = true := by
  obtain ⟨slot, -, found, -⟩ := hold.found passes here
  have bound := (List.getElem?_eq_some_iff.1 here).1
  have before : total i slots' = offset image i :=
    images.total_eq hold known passes loose (Nat.le_of_lt bound) near (Nat.le_refl i)
  rw [(hold.emitted images.closed (fun _ => known) passes here found found').2.2 kind j rfl,
    images.position_between hold known passes here, if_neg (Nat.not_le.2 later), before,
    Argument.isWord_some, decide_eq_true far]
  simp

end

/-- The rows have the lengths that they have in the image, and no literal that is in one word there
has another one. -/
structure Right (parts : List Part) (image : List (List UInt16)) (slots : List Slot) : Prop where
  total_eq : ∀ k ≤ parts.length, total k slots = offset image k
  loose : Loose parts image slots

section

variable {symbols : Symbols} {parts : List Part} {image : List (List UInt16)}
  {slots slots' : List Slot} (images : Images parts image) (hold : Hold symbols parts slots)
  (known : ∀ slot ∈ slots, slot.words.isSome = true)
  (passes : Passes false symbols true slots slots')

include images

theorem Right.near (right : Right parts image slots) {i : Nat} : Near parts image slots i := by
  intro kind j here later
  have inside := (List.getElem?_eq_some_iff.1 here).1
  have target := images.closed kind j (List.mem_of_getElem? here)
  have bound := Nat.lt_of_lt_of_le (images.target_bound here) images.fits
  have order : offset image i ≤ offset image j := offset_le (Nat.le_of_lt later)
  rw [right.total_eq i (Nat.le_of_lt inside), right.total_eq j (Nat.le_of_lt target),
    Nat.add_sub_cancel' order, Nat.mod_eq_of_lt bound]

include hold known passes

theorem Images.right (loose : Loose parts image slots)
    (near : ∀ i < parts.length, Near parts image slots i) : Right parts image slots' := by
  refine ⟨fun k bound => images.total_eq hold known passes loose (Nat.le_refl _) near bound, ?_⟩
  intro i kind j slot' here short found'
  obtain ⟨slot, -, found, -⟩ := hold.found passes here
  have inside := (List.getElem?_eq_some_iff.1 here).1
  have before (k : Nat) (bound : k ≤ i) : total k slots' = offset image k :=
    images.total_eq hold known passes loose (Nat.le_of_lt inside)
      (fun i before => near i (Nat.lt_trans before inside)) bound
  rw [(hold.emitted images.closed (fun _ => known) passes here found found').2.2 kind j rfl,
    images.isWord_between hold known passes loose here found (near i inside) before,
    loose _ _ _ _ here short found]
  simpa using short

theorem Right.words_eq (right : Right parts image slots) :
    slots'.map Slot.words = image.map some := by
  have right' : Right parts image slots' :=
    images.right hold known passes right.loose fun _ _ => right.near images
  refine List.ext_getElem? fun i => ?_
  cases here : parts[i]? with
  | none =>
    have outside := List.getElem?_eq_none_iff.1 here
    have few : slots'.length ≤ i := by rw [passes.length, ← hold.length_eq]; exact outside
    rw [List.getElem?_eq_none (by rw [List.length_map]; exact few),
      List.getElem?_eq_none (by rw [List.length_map, ← images.length]; exact outside)]
  | some part =>
    obtain ⟨slot, slot', found, found'⟩ := hold.found passes here
    have inside := (List.getElem?_eq_some_iff.1 here).1
    rw [List.getElem?_map, List.getElem?_map, found', images.row here, Option.map_some,
      Option.map_some, (hold.emitted images.closed (fun _ => known) passes here found found').1]
    cases part with
    | words ws => rfl
    | transfer kind j =>
      have target := images.closed kind j (List.mem_of_getElem? here)
      have bound := Nat.lt_of_lt_of_le (images.target_bound here) images.fits
      have seen : position (between slots slots' i) j = some (offset image j) := by
        rw [images.position_between hold known passes here]
        split
        · rw [right'.total_eq j (Nat.le_of_lt target)]
        · rename_i later
          rw [right'.total_eq i (Nat.le_of_lt inside), right.total_eq i (Nat.le_of_lt inside),
            right.total_eq j (Nat.le_of_lt target),
            Nat.add_sub_cancel' (offset_le (Nat.le_of_not_le later))]
      rw [Part.encode, Part.encode, seen]
      by_cases short : offset image j ≤ Field.maxLiteral.toNat
      · rw [right.loose _ _ _ _ here short found]
      · have long : Field.maxLiteral.toNat < offset image j % addressSpace := by
          rw [Nat.mod_eq_of_lt bound]
          exact Nat.lt_of_not_le short
        rw [Argument.ofPosition_long long, Argument.ofPosition_long long]

end

/-! The provisional pass. -/

section

variable {symbols : Symbols} {parts : List Part} {image : List (List UInt16)} {wide : List Nat}
  {statements : List Statement} {slots : List Slot} (images : Images parts image)
  (widens : Widens parts image wide)

include images widens

theorem Images.countP_succ {i : Nat} (inside : i < parts.length) :
    wide.countP (· < offset image (i + 1)) =
      wide.countP (· < offset image i) + if offset image i ∈ wide then 1 else 0 := by
  refine countP_lt_succ widens.distinct fun w member => ?_
  obtain ⟨k, kind, j, here, -, rfl⟩ := widens.placed w member
  have bound : k < image.length := images.length ▸ (List.getElem?_eq_some_iff.1 here).1
  have bound' : i < image.length := images.length ▸ inside
  rcases Nat.lt_trichotomy k i with earlier | rfl | later
  · have order := offset_lt images.filled earlier bound
    have order' := offset_lt images.filled (Nat.lt_add_one i) bound'
    omega
  · have order := offset_lt images.filled (Nat.lt_add_one k) bound
    omega
  · have order := offset_lt images.filled later bound'
    have order' : offset image (i + 1) ≤ offset image k := offset_le later
    omega

theorem Images.transfer_of_wide {i : Nat} {part : Part} (here : parts[i]? = some part)
    (member : offset image i ∈ wide) :
    ∃ kind j, part = .transfer kind j ∧ offset image j ≤ Field.maxLiteral.toNat := by
  obtain ⟨k, kind, j, there, short, same⟩ := widens.placed _ member
  have bound : i < image.length := images.length ▸ (List.getElem?_eq_some_iff.1 here).1
  have bound' : k < image.length := images.length ▸ (List.getElem?_eq_some_iff.1 there).1
  rcases Nat.lt_trichotomy i k with earlier | rfl | later
  · exact absurd same (Nat.ne_of_lt (offset_lt images.filled earlier bound))
  · rw [here] at there
    cases there
    exact ⟨kind, j, rfl, short⟩
  · exact absurd same (Nat.ne_of_gt (offset_lt images.filled later bound'))

variable (hold : Hold symbols parts (start statements))
  (passes : Passes false symbols false (start statements) slots)
  (loose : Loose parts image (start statements))

include hold passes loose

omit images widens in
theorem Loose.provisional (closed : Closed parts) : Loose parts image slots := by
  intro i kind j slot' here short found'
  obtain ⟨slot, -, found, -⟩ := hold.found passes here
  rw [(hold.emitted closed (by simp) passes here found found').2.2 kind j rfl,
    loose _ _ _ _ here short found]
  rfl

omit images hold in
theorem Widens.isWord_provisional {i j : Nat} {kind : Transfer} {slot : Slot}
    (here : parts[i]? = some (.transfer kind j)) (found : (start statements)[i]? = some slot)
    (before : ∀ k ≤ i, total k slots = offset image k + wide.countP (· < offset image k)) :
    (Argument.ofPosition slot.statement.isLatched
        (position (between (start statements) slots i) j)).isWord =
      decide (Field.maxLiteral.toNat < offset image j ∨ offset image i ∈ wide) := by
  have inside : i ≤ slots.length := by
    rw [passes.length]
    exact Nat.le_of_lt (List.getElem?_eq_some_iff.1 found).1
  rw [Bool.eq_iff_iff, decide_eq_true_iff]
  rcases Nat.lt_or_ge i j with later | earlier
  · rw [position_start later]
    refine iff_of_true rfl ?_
    rcases Nat.lt_or_ge Field.maxLiteral.toNat (offset image j) with long | short
    · exact .inl long
    · exact .inr ((widens.chosen here short).2 (.inl later))
  · rw [position_before (known_of_passes passes) earlier inside, before j earlier,
      Argument.isWord_some, Nat.mod_eq_of_lt (widens.room here)]
    rcases Nat.lt_or_ge Field.maxLiteral.toNat (offset image j) with long | short
    · simp [long, Nat.lt_of_lt_of_le long (Nat.le_add_right _ _)]
    · rw [loose _ _ _ _ here short found, widens.chosen here short]
      simp [Nat.not_lt.2 short, Nat.not_lt.2 earlier]

theorem Images.size_provisional {i : Nat} {part : Part} {slot' : Slot}
    (here : parts[i]? = some part) (found' : slots[i]? = some slot')
    (before : ∀ k ≤ i, total k slots = offset image k + wide.countP (· < offset image k)) :
    slot'.size = (part.encode false fun j => some (offset image j)).length +
      if offset image i ∈ wide then 1 else 0 := by
  obtain ⟨slot, -, found, -⟩ := hold.found passes here
  have emitted := (hold.emitted images.closed (by simp) passes here found found').1
  rw [Slot.size, emitted, Option.map_some, Option.getD_some]
  cases part with
  | words ws =>
    have other : offset image i ∉ wide := by
      intro member
      obtain ⟨kind, j, here', -⟩ := images.transfer_of_wide widens here member
      cases here'
    rw [if_neg other]
    rfl
  | transfer kind j =>
    rw [images.length_row here (images.row here), Part.encode, Transfer.length_decoded,
      widens.isWord_provisional passes loose here found before]
    by_cases member : offset image i ∈ wide
    · obtain ⟨_, _, ⟨⟩, short⟩ := images.transfer_of_wide widens here member
      simp [member, Nat.not_lt.2 short]
    · simp [member]

theorem Images.total_provisional {k : Nat} (bound : k ≤ parts.length) :
    total k slots = offset image k + wide.countP (· < offset image k) := by
  refine @total_eq_of_sizes slots _ (fun k => offset image k + wide.countP (· < offset image k))
    (by simp [offset]) (fun m short before => ?_) k bound
  obtain ⟨part, here⟩ : ∃ part, parts[m]? = some part := ⟨_, List.getElem?_eq_getElem short⟩
  obtain ⟨-, slot', -, found'⟩ := hold.found passes here
  refine ⟨slot', found', ?_⟩
  rw [images.countP_succ widens short, offset_succ (images.row here),
    images.size_provisional widens hold passes loose here found' before]
  omega

theorem Images.seen_provisional {i j : Nat} {kind : Transfer}
    (here : parts[i]? = some (.transfer kind j)) (later : i < j) :
    (offset image i + (total j slots - total i slots)) % addressSpace =
      offset image j + wide.countP (fun w => offset image i ≤ w && w < offset image j) := by
  have inside := (List.getElem?_eq_some_iff.1 here).1
  have target := images.closed kind j (List.mem_of_getElem? here)
  have order : offset image i ≤ offset image j := offset_le (Nat.le_of_lt later)
  have moved := images.total_provisional widens hold passes loose (Nat.le_of_lt inside)
  have moved' := images.total_provisional widens hold passes loose (Nat.le_of_lt target)
  have parted := countP_between order wide
  have bound := widens.room here
  have seen : offset image i + (total j slots - total i slots) =
      offset image j + wide.countP (fun w => offset image i ≤ w && w < offset image j) := by
    omega
  rw [seen, Nat.mod_eq_of_lt (by omega)]

theorem Images.near_provisional {i : Nat}
    (stays : ∀ kind j, parts[i]? = some (.transfer kind j) → i < j →
      offset image j ≤ Field.maxLiteral.toNat → offset image j +
        wide.countP (fun w => offset image i ≤ w && w < offset image j) ≤
          Field.maxLiteral.toNat) : Near parts image slots i := by
  intro kind j here later
  rw [images.seen_provisional widens hold passes loose here later]
  refine ⟨fun far => ?_, fun long => Nat.lt_of_lt_of_le long (Nat.le_add_right _ _)⟩
  exact Nat.lt_of_not_le fun short => Nat.not_lt.2 (stays kind j here later short) far

end

/-! Words. -/

theorem length_eq_of_append {kind : Transfer} {latched latched' : Bool}
    {position position' : Option Nat} {rest rest' : List UInt16}
    (same : (kind.decoded (.ofPosition latched position)).words ++ rest =
      (kind.decoded (.ofPosition latched' position')).words ++ rest') :
    (kind.decoded (.ofPosition latched position)).words.length =
      (kind.decoded (.ofPosition latched' position')).words.length := by
  have bound := Argument.code_ofPosition_lt latched position
  have bound' := Argument.code_ofPosition_lt latched' position'
  have codes : (Argument.ofPosition latched position).code =
      (Argument.ofPosition latched' position').code := by
    cases kind with
    | call =>
      have second := congrArg Word.second (List.cons.inj same).1
      rwa [Word.second_encode (by decide) (by decide) bound,
        Word.second_encode (by decide) (by decide) bound'] at second
    | jump =>
      have second := congrArg Word.second (List.cons.inj same).1
      rwa [Word.second_encode (by decide) (by decide) bound,
        Word.second_encode (by decide) (by decide) bound'] at second
  rw [Transfer.length_decoded, Transfer.length_decoded, Argument.isWord_ofPosition,
    Argument.isWord_ofPosition, codes]

def Part.Fills (part : Part) (row : List UInt16) : Prop :=
  ∃ latched position, row = part.encode latched position

theorem rows_eq_of_flatten {parts : List Part} {rows rows' : List (List UInt16)}
    (fills : List.Forall₂ Part.Fills parts rows) (fills' : List.Forall₂ Part.Fills parts rows')
    (same : rows.flatten = rows'.flatten) : rows = rows' := by
  induction fills generalizing rows' with
  | nil =>
    cases fills'
    rfl
  | @cons part row parts rows here later ih =>
    cases fills' with
    | cons here' later' =>
      obtain ⟨latched, position, rfl⟩ := here
      obtain ⟨latched', position', rfl⟩ := here'
      rw [List.flatten_cons, List.flatten_cons] at same
      have length : (part.encode latched position).length =
          (part.encode latched' position').length := by
        cases part with
        | words ws => rfl
        | transfer kind j => exact length_eq_of_append same
      obtain ⟨front, back⟩ := List.append_inj same length
      rw [front, ih later' back]

theorem Images.fills {parts : List Part} {image : List (List UInt16)}
    (images : Images parts image) : List.Forall₂ Part.Fills parts image := by
  refine List.forall₂_iff_get.2 ⟨images.length, fun i bound bound' => ?_⟩
  have row := images.row (List.getElem?_eq_getElem bound)
  rw [List.getElem?_eq_getElem bound', Option.some.injEq] at row
  exact ⟨_, _, row⟩

theorem Hold.fills {symbols : Symbols} {parts : List Part} {slots slots' : List Slot}
    (hold : Hold symbols parts slots) (closed : Closed parts)
    (known : ∀ slot ∈ slots, slot.words.isSome = true)
    (passes : Passes false symbols true slots slots') :
    ∃ rows, slots'.map Slot.words = rows.map some ∧ List.Forall₂ Part.Fills parts rows := by
  refine ⟨slots'.map fun slot => slot.words.getD [], ?_, ?_⟩
  · rw [List.map_map]
    refine List.map_congr_left fun slot member => ?_
    obtain ⟨words, filled⟩ := Option.isSome_iff_exists.1 (known_of_passes passes slot member)
    rw [Function.comp, filled, Option.getD_some]
  · rw [List.forall₂_map_right_iff]
    refine List.forall₂_iff_get.2 ⟨hold.length_eq.trans passes.length.symm,
      fun i bound bound' => ?_⟩
    have here : parts[i]? = some (parts.get ⟨i, bound⟩) := List.getElem?_eq_getElem bound
    have found' : slots'[i]? = some (slots'.get ⟨i, bound'⟩) := List.getElem?_eq_getElem bound'
    obtain ⟨slot, -, found, -⟩ := hold.found passes here
    rw [(hold.emitted closed (fun _ => known) passes here found found').1]
    exact ⟨_, _, rfl⟩

theorem Hold.length_latched {symbols : Symbols} {parts : List Part} {slots slots' : List Slot}
    (hold : Hold symbols parts slots) (closed : Closed parts)
    (known : ∀ slot ∈ slots, slot.words.isSome = true)
    (passes : Passes false symbols true slots slots') {i j : Nat} {kind : Transfer}
    {slot slot' : Slot} (here : parts[i]? = some (.transfer kind j))
    (found : slots[i]? = some slot) (found' : slots'[i]? = some slot')
    (latched : slot.statement.isLatched = true) :
    ∃ words, slot'.words = some words ∧ words.length = 2 := by
  refine ⟨_, (hold.emitted closed (fun _ => known) passes here found found').1, ?_⟩
  rw [Part.encode, Transfer.length_decoded, latched, Argument.isWord_latched, if_pos rfl]

section

variable {o : Options} (plain : o.optimize = false) {symbols : Symbols} {parts : List Part}
  {image : List (List UInt16)} {wide : List Nat} {statements : List Statement}
  (images : Images parts image) (widens : Widens parts image wide)
  (hold : Hold symbols parts (start statements)) (loose : Loose parts image (start statements))
  (settled : (run o symbols statements).failure = none)

include plain images hold settled

theorem Images.flatten_eq_iff :
    (Program.ofSlots symbols (run o symbols statements).slots).words = image.flatten ↔
      (run o symbols statements).slots.map Slot.words = image.map some := by
  obtain ⟨_, -, -, again, kept⟩ := hold.settled plain images.closed settled
  have last := (kept (fun _ => True) (fun _ _ => trivial) fun _ _ _ _ _ _ => trivial).1
  obtain ⟨rows, given, fills⟩ := last.fills images.closed (known_of_passes again) again
  have words (rows : List (List UInt16)) : (rows.map some).flatMap (·.getD []) = rows.flatten := by
    rw [List.flatMap_map]
    exact List.flatMap_id'
  rw [Program.words_ofSlots, given, words]
  constructor
  · intro same
    rw [rows_eq_of_flatten fills images.fills same]
  · intro same
    rw [(List.map_inj_right fun _ _ => Option.some.inj).1 same]

include widens loose

theorem Images.words_eq_iff :
    (Program.ofSlots symbols (run o symbols statements).slots).words = image.flatten ↔
      ∀ i kind j, parts[i]? = some (.transfer kind j) → i < j →
        offset image j ≤ Field.maxLiteral.toNat → offset image j +
          wide.countP (fun w => offset image i ≤ w && w < offset image j) ≤
            Field.maxLiteral.toNat := by
  rw [images.flatten_eq_iff plain hold settled]
  obtain ⟨slots, passes, first, again, kept⟩ := hold.settled plain images.closed settled
  have known := known_of_passes passes
  have loose' := loose.provisional hold passes images.closed
  constructor
  · intro words i
    induction i using Nat.strongRecOn with
    | _ i ih =>
      intro kind j here later short
      refine Nat.le_of_not_lt fun far => ?_
      have near (k : Nat) (before : k < i) : Near parts image slots k :=
        images.near_provisional widens hold passes loose (ih k before)
      rw [← images.seen_provisional widens hold passes loose here later] at far
      -- The operand is latched in the first finalizing pass, and from then on.
      obtain ⟨last, latched⟩ := kept
        (fun slots => ∀ slot, slots[i]? = some slot → slot.statement.isLatched = true)
        (fun slots' passes' slot' found' =>
          images.isLatched_of_far first known passes' loose' here later near far found')
        (fun old new hold' known' latched passes' slot' found' => by
          obtain ⟨slot, -, found, -⟩ := hold'.found passes' here
          rw [(hold'.emitted images.closed (fun _ => known') passes' here found found').2.2 kind j
            rfl, latched slot found, Bool.true_or])
      obtain ⟨slot, -, found, -⟩ := last.found again here
      obtain ⟨row, filled, two⟩ :=
        last.length_latched images.closed (known_of_passes again) again here
        found found (latched slot found)
      have same : image[i]? = some row := by
        have entries := congrArg (·[i]?) words
        simpa only [List.getElem?_map, found, filled, images.row here, Option.map_some,
          Option.some.injEq, eq_comm] using entries
      rw [images.length_row here same, if_neg (Nat.not_lt.2 short)] at two
      cases two
  · intro stays
    obtain ⟨last, right⟩ := kept (Right parts image)
      (fun slots' passes' => images.right first known passes' loose' fun i _ =>
        images.near_provisional widens hold passes loose (stays i))
      (fun old new hold' known' right passes' =>
        images.right hold' known' passes' right.loose fun _ _ => right.near images)
    exact right.words_eq images last (known_of_passes again) again

end

end Layout

end WordAsm
