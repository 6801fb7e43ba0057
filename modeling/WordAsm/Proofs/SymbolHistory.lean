import WordAsm.Symbol.Table

/-!
Tables of symbols over any history. Labels and constants share one space of keys. A call writes at
most the key that it is about, and it writes a key only if that is free in both tables; constants
alone are ever dropped. So no key is in both tables, and a label stays where it was put. The key
that a label is put under is the first one that is tried when it is looked up from its own scope.
-/
namespace WordAsm

namespace Scope

theorem qualifiers_enter (s : Scope) (fragment : String) :
    (s.enter fragment).qualifiers = (s.enter fragment).qualifier :: s.qualifiers := by
  have shorter : ∀ n ∈ List.range s.length, (s ++ [fragment]).take (n + 1) = s.take (n + 1) := by
    intro n member
    have bound := List.mem_range.1 member
    exact List.take_append_of_le_length (by omega)
  have whole : (s ++ [fragment]).take (s.length + 1) = s ++ [fragment] :=
    List.take_of_length_le (by simp)
  rw [qualifiers, enter, List.length_append, List.length_singleton, List.range_succ,
    List.reverse_append, List.reverse_singleton, List.singleton_append, List.map_cons, whole,
    qualifiers]
  congr 1
  apply List.map_congr_left
  intro n member
  rw [shorter n (List.mem_reverse.1 member)]

end Scope

namespace Symbols

def Free (s : Symbols) (name key : String) : Prop :=
  isUnusable name = false ∧ key ∉ s.labels ∧ key ∉ s.constants

def Call.Accepted (s : Symbols) : Call → Prop
  | .addLabel name scope global _ => s.Free name (scopedKey scope.qualifier name global)
  | .define name _ => s.Free name (Text.upper name)
  | .undefine _ => True

def Disjoint (s : Symbols) : Prop := ∀ k, ¬ (k ∈ s.labels ∧ k ∈ s.constants)

section

variable {s : Symbols} {name global : String} {scope : Scope}

theorem addLabel_free (free : s.Free name (scopedKey scope.qualifier name global)) (label : Label) :
    s.addLabel name scope global label =
      (({ s with labels := s.labels.insert (scopedKey scope.qualifier name global) label },
        globalAfter name global), none) := by
  simp [addLabel, free.1, free.2.1, free.2.2]

theorem addLabel_refused (rejected : ¬ s.Free name (scopedKey scope.qualifier name global))
    (label : Label) : ∃ fault, s.addLabel name scope global label = ((s, global), some fault) := by
  unfold addLabel
  split
  · exact ⟨_, rfl⟩
  · rename_i usable
    dsimp only
    split
    · exact ⟨_, rfl⟩
    · rename_i constant
      split
      · exact ⟨_, rfl⟩
      · rename_i taken
        exact absurd ⟨by simpa using usable, by simpa using taken, by simpa using constant⟩ rejected

theorem define_free (free : s.Free name (Text.upper name)) (value : Int64) :
    s.define name value =
      ({ s with constants := s.constants.insert (Text.upper name) value }, none) := by
  simp [define, free.1, free.2.1, free.2.2]

theorem define_refused (rejected : ¬ s.Free name (Text.upper name)) (value : Int64) :
    ∃ fault, s.define name value = (s, some fault) := by
  unfold define
  split
  · exact ⟨_, rfl⟩
  · rename_i usable
    dsimp only
    split
    · exact ⟨_, rfl⟩
    · rename_i constant
      split
      · exact ⟨_, rfl⟩
      · rename_i taken
        exact absurd ⟨by simpa using usable, by simpa using taken, by simpa using constant⟩ rejected

end

/-- What a call does to the tables: it is refused and they stay, or it puts a label or a constant
under a key that is free in both, or it drops a constant. -/
inductive Changes (s : Symbols) : Call → Symbols → Answer → Prop
  | refused {call : Call} (fault : Fault) (global : Option String)
      (given : ∀ name scope outer label, call = .addLabel name scope outer label →
        global = some outer) (rejected : ¬ call.Accepted s) :
      Changes s call s ⟨global, some fault⟩
  | added {name global : String} {scope : Scope} {label : Label}
      (free : s.Free name (scopedKey scope.qualifier name global)) :
      Changes s (.addLabel name scope global label)
        { s with labels := s.labels.insert (scopedKey scope.qualifier name global) label }
        ⟨some (globalAfter name global), none⟩
  | defined {name : String} {value : Int64} (free : s.Free name (Text.upper name)) :
      Changes s (.define name value)
        { s with constants := s.constants.insert (Text.upper name) value } ⟨none, none⟩
  | dropped {name : String} : Changes s (.undefine name) (s.undefine name) ⟨none, none⟩

theorem changes_perform (s : Symbols) (call : Call) :
    Changes s call (s.perform call).1 (s.perform call).2 := by
  cases call with
  | addLabel name scope global label =>
    by_cases free : s.Free name (scopedKey scope.qualifier name global)
    · rw [perform, addLabel_free free]
      exact .added free
    · obtain ⟨fault, refused⟩ := addLabel_refused free label
      rw [perform, refused]
      apply Changes.refused
      · intro name' scope' outer label' same
        cases same
        rfl
      · exact free
  | define name value =>
    by_cases free : s.Free name (Text.upper name)
    · rw [perform, define_free free]
      exact .defined free
    · obtain ⟨fault, refused⟩ := define_refused free value
      rw [perform, refused]
      apply Changes.refused
      · intro name' scope' outer label' same
        cases same
      · exact free
  | undefine name => exact .dropped

section

variable {s after : Symbols} {call : Call} {answer : Answer}

theorem Changes.disjoint (changes : Changes s call after answer) (disjoint : s.Disjoint) :
    after.Disjoint := by
  intro k both
  cases changes with
  | refused => exact disjoint k both
  | @added name global scope label free =>
    obtain ⟨labelled, constant⟩ := both
    rcases Std.TreeMap.mem_insert.1 labelled with same | earlier
    · rw [Std.LawfulEqCmp.compare_eq_iff_eq.1 same] at free
      exact free.2.2 constant
    · exact disjoint k ⟨earlier, constant⟩
  | @defined name value free =>
    obtain ⟨labelled, constant⟩ := both
    rcases Std.TreeMap.mem_insert.1 constant with same | earlier
    · rw [Std.LawfulEqCmp.compare_eq_iff_eq.1 same] at free
      exact free.2.1 labelled
    · exact disjoint k ⟨labelled, earlier⟩
  | dropped =>
    obtain ⟨labelled, constant⟩ := both
    exact disjoint k ⟨labelled, Std.TreeMap.mem_of_mem_erase constant⟩

theorem Changes.label {k : String} {label : Label} (changes : Changes s call after answer)
    (known : s.labels[k]? = some label) : after.labels[k]? = some label := by
  cases changes with
  | refused => exact known
  | added free =>
    rw [Std.TreeMap.getElem?_insert, if_neg]
    · exact known
    · intro same
      rw [Std.LawfulEqCmp.compare_eq_iff_eq.1 same] at free
      have member : k ∈ s.labels := by
        rw [Std.TreeMap.mem_iff_isSome_getElem?, known]
        rfl
      exact free.2.1 member
  | defined => exact known
  | dropped => exact known

theorem Changes.refusal {fault : Fault} (changes : Changes s call after answer)
    (failed : answer.fault = some fault) : after = s ∧ ∀ name scope global label,
      call = .addLabel name scope global label → answer.global = some global := by
  cases changes with
  | refused _ _ given => exact ⟨rfl, given⟩
  | added => cases failed
  | defined => cases failed
  | dropped => cases failed

theorem Changes.put {name global : String} {scope : Scope} {label : Label}
    (changes : Changes s (.addLabel name scope global label) after answer)
    (passed : answer.fault = none) :
    after.labels[scopedKey scope.qualifier name global]? = some label := by
  cases changes with
  | refused => cases passed
  | added => exact Std.TreeMap.getElem?_insert_self

theorem Changes.accepted (changes : Changes s call after answer) :
    answer.fault = none ↔ call.Accepted s := by
  cases changes with
  | refused fault global given rejected => simp [rejected]
  | added free => simp [Call.Accepted, free]
  | defined free => simp [Call.Accepted, free]
  | dropped => simp [Call.Accepted]

end

theorem disjoint_performAll {s : Symbols} (disjoint : s.Disjoint) (calls : List Call) :
    (s.performAll calls).Disjoint := by
  induction calls generalizing s with
  | nil => exact disjoint
  | cons call calls ih => exact ih ((changes_perform s call).disjoint disjoint)

theorem label_performAll {s : Symbols} {k : String} {label : Label}
    (known : s.labels[k]? = some label) (calls : List Call) :
    (s.performAll calls).labels[k]? = some label := by
  induction calls generalizing s with
  | nil => exact known
  | cons call calls ih => exact ih ((changes_perform s call).label known)

theorem find_of_label {s : Symbols} {name global : String} {scope : Scope} {label : Label}
    (known : s.labels[scopedKey scope.qualifier name global]? = some label) :
    s.find? name global scope = some (scopedKey scope.qualifier name global, label) := by
  unfold find?
  rcases List.eq_nil_or_concat scope with rfl | ⟨scope, fragment, rfl⟩
  · have outside : scopedKey (Scope.qualifier []) name global = key name global := by
      simp [scopedKey, Scope.qualifier, Text.upper]
    rw [outside] at known ⊢
    simp [Scope.qualifiers, known]
  · have first := Scope.qualifiers_enter scope fragment
    rw [Scope.enter, ← List.concat_eq_append] at first
    rw [first, List.map_cons, List.cons_append, List.findSome?_cons, known]
    rfl

/-- The tables of a session: no key is in both, a label stays where it was put and is found from
there, and a call that is refused changes nothing. Calls are refused for names that cannot be
used and for keys that are taken, and for no other reason. -/
theorem session_consistent (calls : List Call) :
    let s := performAll {} calls
    s.Disjoint ∧
    (∀ (k : String) label later, s.labels[k]? = some label →
      (s.performAll later).labels[k]? = some label) ∧
    (∀ call fault, (s.perform call).2.fault = some fault → (s.perform call).1 = s ∧
      ∀ name scope global label, call = .addLabel name scope global label →
        (s.perform call).2.global = some global) ∧
    (∀ name scope global label,
      (s.perform (.addLabel name scope global label)).2.fault = none → ∀ later,
        ((s.perform (.addLabel name scope global label)).1.performAll later).find? name global
          scope = some (scopedKey scope.qualifier name global, label)) ∧
    ∀ call, (s.perform call).2.fault = none ↔ call.Accepted s := by
  intro s
  refine ⟨?_, ?_, ?_, ?_, ?_⟩
  · apply disjoint_performAll
    rintro k ⟨labelled, -⟩
    exact absurd labelled Std.TreeMap.not_mem_emptyc
  · intro k label later known
    exact label_performAll known later
  · intro call fault failed
    exact (changes_perform s call).refusal failed
  · intro name scope global label passed later
    have put := (changes_perform s _).put passed
    exact find_of_label (label_performAll put later)
  · intro call
    exact (changes_perform s call).accepted

-- A label of an invocation and a constant that would have the same key.
theorem session_consistent_shared :
    let call := Call.addLabel "loop" ["M_1"] "" ⟨3, 2⟩
    let s := (perform (performAll {} []) call).1
    (perform (performAll {} []) call).2.fault = none ∧
      (s.perform (.define "m_1::loop" 7)).2.fault =
        some (.redefined (.constantOverLabel "m_1::loop")) ∧
      (s.perform (.define "m_1::loop" 7)).1 = s ∧
      (s.performAll [.define "m_1::loop" 7, .undefine "m_1::loop"]).find? "loop" "" ["M_1"] =
        some ("M_1::LOOP", ⟨3, 2⟩) := by
  have passed : (perform (performAll {} []) (.addLabel "loop" ["M_1"] "" ⟨3, 2⟩)).2.fault =
      none := by decide +kernel
  have refused : (((performAll {} [.addLabel "loop" ["M_1"] "" ⟨3, 2⟩]).perform
      (.define "m_1::loop" 7)).2.fault) = some (.redefined (.constantOverLabel "m_1::loop")) := by
    decide +kernel
  have spelled : scopedKey (Scope.qualifier ["M_1"]) "loop" "" = "M_1::LOOP" := by decide +kernel
  have kept := (session_consistent [.addLabel "loop" ["M_1"] "" ⟨3, 2⟩]).2.2.1 _ _ refused
  have found := (session_consistent []).2.2.2.1 _ _ _ _ passed
    [.define "m_1::loop" 7, .undefine "m_1::loop"]
  rw [spelled] at found
  exact ⟨passed, refused, kept.1, found⟩

end Symbols

end WordAsm
