import WordAsm.Proofs.LabelNames
import WordAsm.Proofs.SymbolHistory

/-!
Keys of labels. A key spells the scope of a label, the namespace of a local label and the name of
the label, with colons between them. Where none of these has colons of its own, the key tells them
apart, except that a namespace may be spelled like the innermost fragment of a scope.
-/
namespace WordAsm

namespace Text

def CaseRow.moved (row : CaseRow) (n : Nat) : Nat := ((n : Int) + row.shift).toNat

def CaseRow.isApart (row other : CaseRow) : Bool :=
  Nat.blt (row.moved row.last) other.first || Nat.blt other.last (row.moved row.first) ||
    (other.step == 2 && (row.step == 2 || row.first == row.last) &&
      (row.moved row.first + other.first) % 2 == 1)

def CaseRow.isStill (row : CaseRow) : Bool :=
  (Nat.ble 0x80 (row.moved row.first) && Nat.blt (row.moved row.last) 0x10FF80 &&
      upperRows.all row.isApart) ||
    (row.first == row.last && Nat.blt (row.moved row.first) 0x80 &&
      upperChar (Char.ofNat (row.moved row.first)) == Char.ofNat (row.moved row.first) &&
      Char.ofNat (row.moved row.first) != ':')

theorem isStill_upperRows : ∀ row ∈ upperRows, row.isStill = true := by decide +kernel

theorem CaseRow.not_covers {row other : CaseRow} {n : Nat} (apart : row.isApart other = true)
    (wide : 0x80 ≤ row.moved row.first) (covered : row.covers n = true) :
    other.covers (row.moved n) = false := by
  simp only [isApart, Bool.or_eq_true, Nat.blt_eq, Bool.and_eq_true, beq_iff_eq] at apart
  simp only [covers, Bool.and_eq_true, decide_eq_true_eq, beq_iff_eq] at covered
  have order : row.moved row.first ≤ row.moved n ∧ row.moved n ≤ row.moved row.last := by
    simp only [moved] at wide ⊢
    omega
  simp only [covers, Bool.and_eq_false_iff, decide_eq_false_iff_not, beq_eq_false_iff_ne]
  rcases apart with (behind | before) | ⟨⟨two, same⟩, odd⟩
  · omega
  · omega
  · have even : (row.moved n + row.moved row.first) % 2 = 0 := by
      simp only [moved] at wide ⊢
      rcases same with step | single
      · rw [step] at covered
        omega
      · omega
    rw [two]
    omega

theorem upperChar_still (c : Char) :
    upperChar (upperChar c) = upperChar c ∧ (upperChar c = ':' → c = ':') := by
  by_cases ascii : c.toNat < 0x80
  · have checked : ∀ n < 0x80,
        upperChar (upperChar (Char.ofNat n)) = upperChar (Char.ofNat n) ∧
          (upperChar (Char.ofNat n) = ':' → Char.ofNat n = ':') := by decide +kernel
    have here := checked c.toNat ascii
    rwa [Char.ofNat_toNat] at here
  · have mapped : upperChar c = remap upperRows c := if_neg ascii
    by_cases apart : isStray c = true
    · rw [mapped, remap, if_pos apart]
      exact ⟨by decide +kernel, fun colon => absurd colon (by decide)⟩
    cases found : upperRows.find? (·.covers c.toNat) with
    | none =>
      have same : upperChar c = c := by rw [mapped, remap, if_neg apart, found]
      rw [same]
      exact ⟨same, id⟩
    | some row =>
      have goes : upperChar c = Char.ofNat (row.moved c.toNat) := by
        rw [mapped, remap, if_neg apart, found]
        rfl
      have covered : row.covers c.toNat = true := by
        have held := List.find?_some found
        exact held
      have still := isStill_upperRows row (List.mem_of_find?_eq_some found)
      simp only [CaseRow.isStill, Bool.or_eq_true, Bool.and_eq_true, Nat.ble_eq, Nat.blt_eq,
        List.all_eq_true, beq_iff_eq, bne_iff_ne] at still
      rw [goes]
      rcases still with ⟨⟨wide, last⟩, apart⟩ | ⟨⟨⟨single, _⟩, same⟩, other⟩
      · have inside : 0x80 ≤ row.moved c.toNat ∧ row.moved c.toNat < 0x10FF80 := by
          simp only [CaseRow.covers, Bool.and_eq_true, decide_eq_true_eq] at covered
          simp only [CaseRow.moved] at wide last ⊢
          omega
        rcases toNat_ofNat (row.moved c.toNat) with moved | zero
        · constructor
          · have none : upperRows.find? (·.covers (row.moved c.toNat)) = none := by
              rw [List.find?_eq_none]
              intro other member
              simp [CaseRow.not_covers (apart other member) wide covered]
            have plain : ¬ isStray (Char.ofNat (row.moved c.toNat)) = true := by
              simp only [isStray, moved, decide_eq_true_eq]
              omega
            rw [upperChar, moved, if_neg (by omega), remap, if_neg plain, moved, none]
          · intro colon
            rw [colon] at moved
            simp at moved
            omega
        · have null : Char.ofNat (row.moved c.toNat) = Char.ofNat 0 := Char.toNat_inj.1 zero
          rw [null]
          exact ⟨by decide, fun colon => absurd colon (by decide)⟩
      · have here : c.toNat = row.first := by
          simp only [CaseRow.covers, Bool.and_eq_true, decide_eq_true_eq] at covered
          omega
        rw [here]
        exact ⟨same, fun colon => absurd colon other⟩

theorem upper_upper (s : String) : upper (upper s) = upper s := by
  simp only [upper, String.toList_ofList, List.map_map]
  congr 1
  apply List.map_congr_left
  intro c _
  exact (upperChar_still c).1

theorem colon_of_upper {s : String} (colon : ':' ∈ (upper s).toList) : ':' ∈ s.toList := by
  rw [upper, String.toList_ofList] at colon
  obtain ⟨c, member, same⟩ := List.mem_map.1 colon
  rwa [(upperChar_still c).2 same] at member

end Text

namespace Scope

def spelled (names : List String) : List Char := names.flatMap fun name => name.toList ++ [':', ':']

def Plain (s : Scope) : Prop := ∀ f ∈ s, ':' ∉ f.toList ∧ Text.upper f = f

theorem toList_qualifier (s : Scope) : s.qualifier.toList = spelled s := by
  induction s with
  | nil => rfl
  | cons f rest ih =>
    cases rest with
    | nil => simp [qualifier, text, spelled]
    | cons g rest =>
      have here : (qualifier (f :: g :: rest)) = f ++ "::" ++ qualifier (g :: rest) := by
        simp [qualifier, text, String.intercalate_cons_cons, String.append_assoc]
      rw [here, String.toList_append, String.toList_append, ih]
      simp [spelled]

theorem upper_qualifier {s : Scope} (plain : s.Plain) :
    (Text.upper s.qualifier).toList = spelled s := by
  rw [Text.upper, String.toList_ofList, toList_qualifier]
  induction s with
  | nil => rfl
  | cons f rest ih =>
    have later := ih fun g member => plain g (List.mem_cons_of_mem f member)
    have here : f.toList.map Text.upperChar = f.toList := by
      have same := congrArg String.toList (plain f (List.mem_cons_self ..)).2
      rwa [Text.upper, String.toList_ofList] at same
    have colons : [':', ':'].map Text.upperChar = [':', ':'] := by decide
    simp only [spelled, List.flatMap_cons, List.map_append] at later ⊢
    rw [later, here, colons]

theorem spelled_inj {names names' : List String} {cs cs' : List Char}
    (plain : ∀ name ∈ names, ':' ∉ name.toList) (plain' : ∀ name ∈ names', ':' ∉ name.toList)
    (last : ':' ∉ cs) (last' : ':' ∉ cs') (same : spelled names ++ cs = spelled names' ++ cs') :
    names = names' := by
  -- What stands before the first colon is the first name.
  have front : ∀ (name : String) (cs : List Char), ':' ∉ name.toList →
      (name.toList ++ ':' :: cs).takeWhile (· != ':') = name.toList := by
    intro name cs free
    rw [List.takeWhile_append_of_pos]
    · simp
    · intro c member
      rw [bne_iff_ne]
      rintro rfl
      exact free member
  induction names generalizing names' with
  | nil =>
    cases names' with
    | nil => rfl
    | cons name' rest' =>
      have inside : ':' ∈ spelled [] ++ cs := by
        rw [same]
        simp [spelled]
      exact absurd inside last
  | cons name rest ih =>
    cases names' with
    | nil =>
      have inside : ':' ∈ spelled [] ++ cs' := by
        rw [← same]
        simp [spelled]
      exact absurd inside last'
    | cons name' rest' =>
      simp only [spelled, List.flatMap_cons, List.append_assoc, List.cons_append,
        List.nil_append] at same
      have heads := congrArg (List.takeWhile (· != ':')) same
      rw [front name _ (plain name (by simp)), front name' _ (plain' name' (by simp))] at heads
      rw [heads, List.append_cancel_left_eq] at same
      have tails := ih (fun n member => plain n (by simp [member]))
        (fun n member => plain' n (by simp [member])) (List.cons.inj (List.cons.inj same).2).2
      rw [String.toList_inj.1 heads, tails]

end Scope

namespace Symbols

theorem prefix_of_find {s : Symbols} {name global k : String} {scope : Scope} {label : Label}
    (found : s.find? name global scope = some (k, label)) :
    ∃ around, around <+: scope ∧ k = scopedKey (Scope.qualifier around) name global := by
  obtain ⟨k', member, hit⟩ := List.exists_of_findSome?_eq_some found
  obtain ⟨_, _, same⟩ := Option.map_eq_some_iff.1 hit
  cases same
  rcases List.mem_append.1 member with inside | outside
  · obtain ⟨q, tried, rfl⟩ := List.mem_map.1 inside
    obtain ⟨n, _, rfl⟩ := List.mem_map.1 tried
    exact ⟨scope.take (n + 1), List.take_prefix _ _, rfl⟩
  · refine ⟨[], List.nil_prefix, ?_⟩
    rw [List.mem_singleton.1 outside]
    simp [scopedKey, Scope.qualifier, Text.upper]

end Symbols

/-- A label as a line spells it, without colons. -/
structure PlainLabel where
  name : String
  /-- The global label before it, unless there is none. -/
  parent : Option String
  plain : ':' ∉ name.toList
  plainParent : ∀ p ∈ parent, ':' ∉ p.toList

namespace PlainLabel

/-- The namespace of local labels that it is in. -/
def global (l : PlainLabel) : String := l.parent.elim "" (· ++ "::")

/-- The key of the label in a scope. -/
def key (l : PlainLabel) (s : Scope) : String :=
  Symbols.scopedKey s.qualifier l.name l.global

def IsUnder (l : PlainLabel) (fragment : String) : Prop :=
  l.parent.map Text.upper = some fragment

def path (l : PlainLabel) : List String :=
  if Symbols.isLocal l.name then (l.parent.map Text.upper).toList else []

theorem path_cases (l : PlainLabel) : l.path = [] ∨ ∃ p, l.IsUnder p ∧ l.path = [p] := by
  unfold path IsUnder
  split
  · cases l.parent with
    | none => exact .inl rfl
    | some p => exact .inr ⟨Text.upper p, rfl, rfl⟩
  · exact .inl rfl

theorem plain_path (l : PlainLabel) : ∀ p ∈ l.path, ':' ∉ p.toList := by
  intro p member
  unfold path at member
  split at member
  · obtain ⟨parent, known, rfl⟩ := Option.map_eq_some_iff.1 (Option.mem_toList.1 member)
    exact fun colon => l.plainParent parent known (Text.colon_of_upper colon)
  · cases member

theorem toList_key (l : PlainLabel) {s : Scope} (plain : s.Plain) :
    (l.key s).toList = Scope.spelled (s ++ l.path) ++ (Text.upper l.name).toList := by
  have inner : (Symbols.key l.name l.global).toList =
      Scope.spelled l.path ++ (Text.upper l.name).toList := by
    unfold Symbols.key path global
    split
    · cases l.parent with
      | none => simp [Scope.spelled, Text.upper]
      | some p =>
        have colons : (Text.upper "::").toList = [':', ':'] := by decide +kernel
        simp [Scope.spelled, Text.upper_append, colons]
    · simp [Scope.spelled]
  rw [key, Symbols.scopedKey, String.toList_append, Scope.upper_qualifier plain, inner,
    Scope.spelled, Scope.spelled, Scope.spelled, List.flatMap_append, List.append_assoc]

section

variable {a b : PlainLabel} {s t outer outer' : Scope} {f f' : String}

theorem path_of_key (plain : s.Plain) (plain' : t.Plain) (same : a.key s = b.key t) :
    s ++ a.path = t ++ b.path := by
  have free : ∀ (l : PlainLabel) (s : Scope), s.Plain → ∀ name ∈ s ++ l.path,
      ':' ∉ name.toList := by
    intro l s plain name member
    rcases List.mem_append.1 member with fragment | inner
    · exact (plain name fragment).1
    · exact l.plain_path name inner
  have named : ∀ l : PlainLabel, ':' ∉ (Text.upper l.name).toList :=
    fun l colon => l.plain (Text.colon_of_upper colon)
  have chars := congrArg String.toList same
  rw [a.toList_key plain, b.toList_key plain'] at chars
  exact Scope.spelled_inj (free a s plain) (free b t plain') (named a) (named b) chars

theorem key_ne_outside (plain : (outer.enter f).Plain) (plain' : t.Plain)
    (outside : ¬ outer.enter f <+: t) (apart : ¬ b.IsUnder f) :
    a.key (outer.enter f) ≠ b.key t := by
  intro same
  have paths := path_of_key plain plain' same
  rcases b.path_cases with none | ⟨p, under, one⟩
  · rw [none, List.append_nil] at paths
    exact outside ⟨a.path, paths⟩
  · rw [one] at paths
    rcases a.path_cases with none | ⟨q, _, one'⟩
    · rw [none, List.append_nil] at paths
      have last : f = p := by
        have tails := congrArg List.getLast? paths
        simpa [Scope.enter] using tails
      exact apart (last ▸ under)
    · rw [one'] at paths
      have scopes := (List.append_inj' paths rfl).1
      rw [scopes] at outside
      exact outside (List.prefix_refl t)

theorem key_ne (plain : (outer.enter f).Plain) (plain' : (outer'.enter f').Plain)
    (distinct : outer.enter f ≠ outer'.enter f') (apart : ¬ a.IsUnder f') (apart' : ¬ b.IsUnder f) :
    a.key (outer.enter f) ≠ b.key (outer'.enter f') := by
  by_cases within : outer.enter f <+: outer'.enter f'
  · have outside : ¬ outer'.enter f' <+: outer.enter f := by
      intro back
      exact distinct (within.eq_of_length (Nat.le_antisymm within.length_le back.length_le))
    exact (key_ne_outside plain' plain outside apart).symm
  · exact key_ne_outside plain plain' within apart'

theorem not_found (plain : (outer.enter f).Plain) (plain' : t.Plain)
    (outside : ¬ outer.enter f <+: t) (apart : ¬ b.IsUnder f) (symbols : Symbols) (label : Label) :
    symbols.find? b.name b.global t ≠ some (a.key (outer.enter f), label) := by
  intro found
  obtain ⟨around, inside, same⟩ := Symbols.prefix_of_find found
  refine key_ne_outside plain (fun g member => plain' g (inside.subset member)) ?_ apart same
  intro within
  exact outside (within.trans inside)

end

end PlainLabel

end WordAsm
