import Mathlib.Data.List.Forall2
import WordAsm.Proofs.PlainTexts
import WordAsm.Proofs.RegisterNames

/-!
Parameters in the tokens of a macro. A parameter that is a word is replaced where it is a whole word
of a token. The parameters are put in one after the other, so the text of an argument is searched
for the parameters after its own. Main statement: the token is what it would be with all parameters
put in at once, each with an argument that the later parameters have been put into; and that makes
no difference exactly if no argument that is used has a later parameter among its words.
-/
namespace WordAsm.Macro

/-- Puts something in the place of every word of a text: a run of word characters that no other one
adjoins. `word` is the part of a word that has been read. -/
def mapWords (put : List Char → List Char) (word : List Char) : List Char → List Char
  | [] => put word
  | c :: rest =>
    if isWordChar c then mapWords put (word ++ [c]) rest
    else put word ++ c :: mapWords put [] rest

def wordsFrom (word : List Char) : List Char → List (List Char)
  | [] => [word]
  | c :: rest => if isWordChar c then wordsFrom (word ++ [c]) rest else word :: wordsFrom [] rest

section

variable {word w u v rest cs : List Char} {c : Char}

theorem mapWords_word (put : List Char → List Char) (all : ∀ c ∈ w, isWordChar c = true) :
    mapWords put word w = put (word ++ w) := by
  induction w generalizing word with
  | nil => rw [mapWords, List.append_nil]
  | cons c w ih =>
    rw [mapWords, if_pos (all c (by simp)), ih (fun d member => all d (by simp [member])),
      List.append_assoc, List.singleton_append]

theorem mapWords_append (put : List Char → List Char) (other : isWordChar c = false) :
    mapWords put word (u ++ c :: v) = mapWords put word u ++ c :: mapWords put [] v := by
  induction u generalizing word with
  | nil => rw [List.nil_append, mapWords, mapWords, if_neg (by simp [other])]
  | cons d u ih =>
    rw [List.cons_append, mapWords, mapWords, ih, ih]
    split
    · rfl
    · rw [List.append_assoc, List.cons_append]

theorem wordsFrom_word (all : ∀ c ∈ w, isWordChar c = true) : wordsFrom word w = [word ++ w] := by
  induction w generalizing word with
  | nil => rw [wordsFrom, List.append_nil]
  | cons c w ih =>
    rw [wordsFrom, if_pos (all c (by simp)), ih (fun d member => all d (by simp [member])),
      List.append_assoc, List.singleton_append]

theorem wordsFrom_append (other : isWordChar c = false) :
    wordsFrom word (u ++ c :: v) = wordsFrom word u ++ wordsFrom [] v := by
  induction u generalizing word with
  | nil =>
    rw [List.nil_append, wordsFrom, wordsFrom, if_neg (by simp [other]), List.singleton_append]
  | cons d u ih =>
    rw [List.cons_append, wordsFrom, wordsFrom, ih, ih]
    split
    · rfl
    · rw [List.cons_append]

theorem word_induction {motive : List Char → Prop}
    (last : ∀ w, (∀ c ∈ w, isWordChar c = true) → motive w)
    (cut : ∀ w c rest, (∀ d ∈ w, isWordChar d = true) → isWordChar c = false → motive rest →
      motive (w ++ c :: rest)) (cs : List Char) : motive cs := by
  suffices begun : ∀ word, (∀ c ∈ word, isWordChar c = true) → motive (word ++ cs) from
    begun [] (by simp)
  induction cs with
  | nil =>
    intro word all
    rw [List.append_nil]
    exact last word all
  | cons c rest ih =>
    intro word all
    cases kind : isWordChar c with
    | true =>
      have longer := ih (word ++ [c]) (by
        intro d member
        rcases List.mem_append.1 member with before | here
        · exact all d before
        · rw [List.mem_singleton.1 here, kind])
      rwa [List.append_assoc, List.singleton_append] at longer
    | false => exact cut word c rest all kind (ih [] (by simp))

theorem wordsFrom_all (member : w ∈ wordsFrom [] cs) : ∀ c ∈ w, isWordChar c = true := by
  induction cs using word_induction with
  | last whole all =>
    rw [wordsFrom_word all, List.mem_singleton] at member
    rwa [member]
  | cut first c rest all other ih =>
    rw [wordsFrom_append other, wordsFrom_word all] at member
    rcases List.mem_cons.1 member with here | later
    · rwa [here]
    · exact ih later

section

variable {f g : List Char → List Char}

theorem mapWords_congr (same : ∀ w ∈ wordsFrom [] cs, f w = g w) :
    mapWords f [] cs = mapWords g [] cs := by
  induction cs using word_induction with
  | last w all =>
    rw [mapWords_word f all, mapWords_word g all]
    exact same w (by simp [wordsFrom_word all])
  | cut w c rest all other ih =>
    rw [wordsFrom_append other, wordsFrom_word all] at same
    rw [mapWords_append f other, mapWords_append g other, mapWords_word f all, mapWords_word g all,
      same _ (by simp), ih (fun v later => same v (by simp [later]))]

theorem mapWords_self (same : ∀ w ∈ wordsFrom [] cs, f w = w) : mapWords f [] cs = cs := by
  rw [mapWords_congr (g := id) same]
  clear same
  induction cs using word_induction with
  | last w all => exact mapWords_word id all
  | cut w c rest all other ih =>
    rw [mapWords_append id other, mapWords_word id all, ih]
    rfl

theorem mapWords_mapWords (f g : List Char → List Char) (cs : List Char) :
    mapWords g [] (mapWords f [] cs) = mapWords (fun w => mapWords g [] (f w)) [] cs := by
  induction cs using word_induction with
  | last w all => rw [mapWords_word f all, mapWords_word _ all]
  | cut w c rest all other ih =>
    rw [mapWords_append f other, mapWords_append g other, mapWords_append _ other, ih,
      mapWords_word f all, mapWords_word _ all]

theorem mem_mapWords (member : c ∈ mapWords f [] cs) :
    c ∈ cs ∨ ∃ w ∈ wordsFrom [] cs, c ∈ f w := by
  induction cs using word_induction with
  | last w all =>
    rw [mapWords_word f all] at member
    exact .inr ⟨w, by simp [wordsFrom_word all], member⟩
  | cut w d rest all other ih =>
    rw [mapWords_append f other, mapWords_word f all] at member
    rw [wordsFrom_append other, wordsFrom_word all]
    rcases List.mem_append.1 member with here | after
    · exact .inr ⟨w, by simp, here⟩
    · rcases List.mem_cons.1 after with rfl | later
      · exact .inl (by simp)
      · rcases ih later with kept | ⟨v, inside, put⟩
        · exact .inl (by simp [kept])
        · exact .inr ⟨v, by simp [inside], put⟩

def Opens (f g : List Char → List Char) (w : List Char) : Prop :=
  (g w).count '(' ≤ (f w).count '(' ∧ ((f w).count '(' = (g w).count '(' → f w = g w)

theorem opens_mapWords (opens : ∀ w ∈ wordsFrom [] cs, Opens f g w) :
    (mapWords g [] cs).count '(' ≤ (mapWords f [] cs).count '(' ∧
      ((mapWords f [] cs).count '(' = (mapWords g [] cs).count '(' →
        ∀ w ∈ wordsFrom [] cs, f w = g w) := by
  induction cs using word_induction with
  | last w all =>
    obtain ⟨less, same⟩ := opens w (by simp [wordsFrom_word all])
    rw [mapWords_word f all, mapWords_word g all, wordsFrom_word all]
    refine ⟨less, ?_⟩
    intro equal v member
    rw [List.mem_singleton.1 member]
    exact same equal
  | cut w c rest all other ih =>
    rw [wordsFrom_append other, wordsFrom_word all] at opens
    obtain ⟨less, same⟩ := opens w (by simp)
    obtain ⟨lessRest, sameRest⟩ := ih (fun v later => opens v (by simp [later]))
    rw [mapWords_append f other, mapWords_append g other, mapWords_word f all, mapWords_word g all,
      wordsFrom_append other, wordsFrom_word all]
    simp only [List.nil_append, List.count_append, List.count_cons]
    refine ⟨by omega, ?_⟩
    intro equal v member
    rcases List.mem_cons.1 member with rfl | later
    · exact same (by omega)
    · exact sameRest (by omega) v later

theorem mapWords_eq_iff (opens : ∀ w ∈ wordsFrom [] cs, Opens f g w) :
    mapWords f [] cs = mapWords g [] cs ↔ ∀ w ∈ wordsFrom [] cs, f w = g w := by
  constructor
  · intro same
    exact (opens_mapWords opens).2 (by rw [same])
  · exact mapWords_congr

end

end

/-- No character is a letter where words are compared and none where they end, as the long s and the
Kelvin sign are. -/
def FoldsEvenly (cs : List Char) : Prop :=
  ∀ c ∈ cs, isWordChar (Text.foldChar c) = isWordChar c

theorem isWordChar_fold {c : Char} (word : isWordChar c = true) :
    isWordChar (Text.foldChar c) = true :=
  forall_wordChar (p := fun c => isWordChar (Text.foldChar c) = true) (by decide) word

section

variable {p w tail : List Char} {before : Option Char}

theorem isWordChar_of_fold (plain : Text.IsPlain p) (even : FoldsEvenly w)
    (same : w.map Text.foldChar = p.map Text.foldChar) : ∀ c ∈ w, isWordChar c = true := by
  intro c member
  have folded : Text.foldChar c ∈ p.map Text.foldChar := same ▸ List.mem_map_of_mem member
  obtain ⟨d, inside, equal⟩ := List.mem_map.1 folded
  rw [← even c member, ← equal]
  exact isWordChar_fold (plain.word d inside)

theorem startsWord_other {c : Char} {rest : List Char} (plain : Text.IsPlain p)
    (even : FoldsEvenly (c :: rest)) (other : isWordChar c = false) :
    startsWord p before (c :: rest) = false := by
  rw [← Bool.not_eq_true]
  intro starts
  simp only [startsWord, Bool.and_eq_true, beq_iff_eq] at starts
  have first : c ∈ (c :: rest).take p.length := by
    cases p with
    | nil => exact absurd rfl plain.nonempty
    | cons d p => simp
  have word := isWordChar_of_fold plain
    (fun d member => even d (List.mem_of_mem_take member)) starts.1.1.2 c first
  rw [word] at other
  cases other

theorem startsWord_inside {b c : Char} {rest : List Char} (inside : isWordChar b = true)
    (word : isWordChar c = true) : startsWord p (some b) (c :: rest) = false := by
  simp [startsWord, isBoundary, inside, word]

theorem any_of_lt (all : ∀ c ∈ w, isWordChar c = true) {i : Nat} (bound : i < w.length) :
    ((w ++ tail)[i]?).any isWordChar = true := by
  rw [List.getElem?_append_left bound, List.getElem?_eq_getElem bound, Option.any_some]
  exact all _ (List.getElem_mem bound)

theorem length_le_of_fold (plain : Text.IsPlain p) (even : FoldsEvenly (w ++ tail))
    (stop : tail.head?.any isWordChar = false)
    (same : ((w ++ tail).take p.length).map Text.foldChar = p.map Text.foldChar) :
    p.length ≤ w.length := by
  have length := congrArg List.length same
  simp only [List.length_map, List.length_take, List.length_append] at length
  by_contra longer
  cases tail with
  | nil =>
    simp only [List.length_nil] at length
    omega
  | cons d rest =>
    have reached : d ∈ (w ++ d :: rest).take p.length := by
      obtain ⟨k, more⟩ : ∃ k, p.length - w.length = k + 1 := ⟨p.length - w.length - 1, by omega⟩
      simp [List.take_append, more]
    have word := isWordChar_of_fold plain
      (fun c member => even c (List.mem_of_mem_take member)) same d reached
    rw [List.head?_cons, Option.any_some, word] at stop
    cases stop

theorem startsWord_word (plain : Text.IsPlain p) (even : FoldsEvenly (w ++ tail))
    (outside : before.any isWordChar = false) (all : ∀ c ∈ w, isWordChar c = true)
    (stop : tail.head?.any isWordChar = false) :
    startsWord p before (w ++ tail) = true ↔ w.map Text.foldChar = p.map Text.foldChar := by
  have positive : 0 < p.length := List.length_pos_iff.2 plain.nonempty
  simp only [startsWord, Bool.and_eq_true, beq_iff_eq, Bool.not_eq_true', isBoundary]
  constructor
  · rintro ⟨⟨⟨-, same⟩, -⟩, ending⟩
    have bound := length_le_of_fold plain even stop same
    -- The word goes on if it is longer than what it is compared with.
    have exactly : p.length = w.length := by
      by_contra shorter
      rw [any_of_lt all (by omega), any_of_lt all (by omega)] at ending
      cases ending
    rwa [exactly, List.take_left'] at same
    rfl
  · intro same
    have exactly : p.length = w.length := by
      have length := congrArg List.length same
      simpa using length.symm
    have begins : (w ++ tail).head?.any isWordChar = true := by
      rw [List.head?_eq_getElem?]
      exact any_of_lt all (by omega)
    have ends : ((w ++ tail)[p.length]?).any isWordChar = false := by
      rw [exactly, List.getElem?_append_right (Nat.le_refl _), Nat.sub_self,
        ← List.head?_eq_getElem?, stop]
    refine ⟨⟨⟨?_, ?_⟩, ?_⟩, ?_⟩
    · simpa using plain.nonempty
    · rwa [exactly, List.take_left' rfl]
    · rw [outside, begins]
      rfl
    · rw [any_of_lt all (by omega), ends]
      rfl

variable (v : List Char)

theorem replaceWord_other {c : Char} {rest : List Char} (plain : Text.IsPlain p)
    (even : FoldsEvenly (c :: rest)) (other : isWordChar c = false) :
    replaceWord p v before 0 (c :: rest) = c :: replaceWord p v (some c) 0 rest := by
  rw [replaceWord, startsWord_other plain even other]
  rfl

theorem replaceWord_stop (plain : Text.IsPlain p) (even : FoldsEvenly tail)
    (stop : tail.head?.any isWordChar = false) :
    replaceWord p v before 0 tail = replaceWord p v none 0 tail := by
  cases tail with
  | nil => rfl
  | cons c rest =>
    have other : isWordChar c = false := by simpa using stop
    rw [replaceWord_other v plain even other, replaceWord_other v plain even other]

theorem replaceWord_inside {b : Char} (plain : Text.IsPlain p) (even : FoldsEvenly tail)
    (stop : tail.head?.any isWordChar = false) (inside : isWordChar b = true)
    (all : ∀ c ∈ w, isWordChar c = true) :
    replaceWord p v (some b) 0 (w ++ tail) = w ++ replaceWord p v none 0 tail := by
  induction w generalizing b with
  | nil => exact replaceWord_stop v plain even stop
  | cons c w ih =>
    have word := all c (by simp)
    rw [List.cons_append, replaceWord, startsWord_inside inside word, if_neg Bool.false_ne_true,
      ih word (fun d member => all d (by simp [member])), List.cons_append]

theorem replaceWord_skip (plain : Text.IsPlain p) (even : FoldsEvenly tail)
    (stop : tail.head?.any isWordChar = false) :
    replaceWord p v before w.length (w ++ tail) = replaceWord p v none 0 tail := by
  induction w generalizing before with
  | nil => exact replaceWord_stop v plain even stop
  | cons c w ih =>
    rw [List.cons_append, List.length_cons, replaceWord]
    exact ih

theorem replaceWord_word (plain : Text.IsPlain p) (even : FoldsEvenly (w ++ tail))
    (outside : before.any isWordChar = false) (all : ∀ c ∈ w, isWordChar c = true)
    (stop : tail.head?.any isWordChar = false) :
    replaceWord p v before 0 (w ++ tail) =
      (if w.map Text.foldChar = p.map Text.foldChar then v else w) ++
        replaceWord p v none 0 tail := by
  have evenTail : FoldsEvenly tail := fun c member => even c (by simp [member])
  cases w with
  | nil =>
    have different : ¬ ([] : List Char).map Text.foldChar = p.map Text.foldChar := by
      simpa [eq_comm] using plain.nonempty
    rw [if_neg different]
    exact replaceWord_stop v plain evenTail stop
  | cons c w =>
    have starts := startsWord_word plain even outside all stop
    rw [List.cons_append] at starts ⊢
    rw [replaceWord]
    by_cases same : (c :: w).map Text.foldChar = p.map Text.foldChar
    · have length : p.length - 1 = w.length := by
        have length := congrArg List.length same
        simp only [List.length_map, List.length_cons] at length
        omega
      rw [if_pos same, starts.2 same, if_pos rfl, length, replaceWord_skip v plain evenTail stop]
    · have elsewhere : startsWord p before (c :: (w ++ tail)) = false :=
        Bool.eq_false_iff.2 fun here => same (starts.1 here)
      rw [if_neg same, elsewhere, if_neg Bool.false_ne_true,
        replaceWord_inside v plain evenTail stop (all c (by simp))
          (fun d member => all d (by simp [member])), List.cons_append]

theorem replaceWord_eq {cs : List Char} (plain : Text.IsPlain p) (even : FoldsEvenly cs)
    (outside : before.any isWordChar = false) :
    replaceWord p v before 0 cs =
      mapWords (fun w => if w.map Text.foldChar = p.map Text.foldChar then v else w) [] cs := by
  induction cs using word_induction generalizing before with
  | last w all =>
    have none : ([] : List Char).head?.any isWordChar = false := rfl
    have whole := replaceWord_word v plain (by rwa [List.append_nil]) outside all none
    rw [List.append_nil] at whole
    rw [whole, mapWords_word _ all]
    exact List.append_nil _
  | cut w c rest all other ih =>
    have stop : (c :: rest).head?.any isWordChar = false := by simpa using other
    have evenTail : FoldsEvenly (c :: rest) := fun d member => even d (by simp [member])
    rw [replaceWord_word v plain even outside all stop, replaceWord_other v plain evenTail other,
      ih (fun d member => evenTail d (by simp [member])) (by simpa using other),
      mapWords_append _ other, mapWords_word _ all]
    rfl

end

def bracketed (argument : String) : List Char := '(' :: argument.toList ++ [')']

/-- What stands for a word. -/
def put (bindings : List (String × String)) (word : List Char) : List Char :=
  match bindings.find? fun b => Text.alike (String.ofList word) b.1 with
  | some b => bracketed b.2
  | none => word

def substitute (bindings : List (String × String)) (text : String) : String :=
  String.ofList (mapWords (put bindings) [] text.toList)

def inTurn : List (String × String) → List (String × String)
  | [] => []
  | (param, argument) :: later => (param, substitute (inTurn later) argument) :: inTurn later

def HasWord (text word : String) : Prop :=
  ∃ w ∈ wordsFrom [] text.toList, Text.alike (String.ofList w) word = true

/-- The parameters are words, and the arguments have no letters of two kinds. -/
structure Regular (bindings : List (String × String)) : Prop where
  params : ∀ b ∈ bindings, Text.IsPlain b.1.toList
  arguments : ∀ b ∈ bindings, FoldsEvenly b.2.toList

section

variable {bindings : List (String × String)} {param argument : String} {w : List Char}

theorem put_cons :
    put ((param, argument) :: bindings) w =
      if Text.alike (String.ofList w) param = true then bracketed argument else put bindings w := by
  cases same : Text.alike (String.ofList w) param with
  | true => simp only [put, List.find?_cons, same, if_true]
  | false => simp only [put, List.find?_cons, same, Bool.false_eq_true, if_false]

theorem put_unbound (unbound : ∀ b ∈ bindings, Text.alike (String.ofList w) b.1 = false) :
    put bindings w = w := by
  have none : (bindings.find? fun b => Text.alike (String.ofList w) b.1) = none := by
    simpa using unbound
  rw [put, none]

theorem put_cases (bindings : List (String × String)) (w : List Char) :
    (∃ b ∈ bindings, put bindings w = bracketed b.2) ∨
      ((∀ b ∈ bindings, Text.alike (String.ofList w) b.1 = false) ∧ put bindings w = w) := by
  cases found : bindings.find? fun b => Text.alike (String.ofList w) b.1 with
  | some b => exact .inl ⟨b, List.mem_of_find?_eq_some found, by rw [put, found]⟩
  | none =>
    have unbound : ∀ b ∈ bindings, Text.alike (String.ofList w) b.1 = false := by
      simpa using found
    exact .inr ⟨unbound, put_unbound unbound⟩

theorem params_inTurn (bindings : List (String × String)) :
    (inTurn bindings).map Prod.fst = bindings.map Prod.fst := by
  induction bindings with
  | nil => rfl
  | cons b later ih => simp [inTurn, ih]

theorem forall_params_inTurn {P : String → Prop} :
    (∀ b ∈ inTurn bindings, P b.1) ↔ ∀ b ∈ bindings, P b.1 := by
  rw [← List.forall_mem_map (f := Prod.fst), params_inTurn, List.forall_mem_map]

theorem Regular.tail {b : String × String} (regular : Regular (b :: bindings)) :
    Regular bindings :=
  ⟨fun b' member => regular.params b' (by simp [member]),
    fun b' member => regular.arguments b' (by simp [member])⟩

theorem put_nil (plain : ∀ b ∈ bindings, Text.IsPlain b.1.toList) : put bindings [] = [] := by
  apply put_unbound
  intro b member
  rw [← Bool.not_eq_true, Text.alike_iff]
  intro same
  exact (plain b member).nonempty (by simpa using same.symm)

theorem mapWords_bracketed {f : List Char → List Char} (empty : f [] = []) (argument : String) :
    mapWords f [] (bracketed argument) =
      '(' :: mapWords f [] argument.toList ++ [')'] := by
  have opening : isWordChar '(' = false := by decide
  have closing : isWordChar ')' = false := by decide
  calc mapWords f [] ([] ++ '(' :: (argument.toList ++ ')' :: []))
      = f [] ++ '(' :: (mapWords f [] argument.toList ++ ')' :: f []) := by
        rw [mapWords_append f opening, mapWords_append f closing, mapWords]
    _ = '(' :: mapWords f [] argument.toList ++ [')'] := by
        rw [empty, List.nil_append, List.cons_append]

theorem put_even (regular : Regular bindings) {cs : List Char} (even : FoldsEvenly cs) :
    FoldsEvenly (mapWords (put bindings) [] cs) := by
  intro c member
  rcases mem_mapWords member with kept | ⟨w, inside, placed⟩
  · exact even c kept
  · rcases put_cases bindings w with ⟨b, bound, same⟩ | ⟨-, same⟩
    · simp only [same, bracketed, List.cons_append, List.mem_cons, List.mem_append,
        List.not_mem_nil, or_false] at placed
      rcases placed with rfl | argument | rfl
      · decide
      · exact regular.arguments b bound c argument
      · decide
    · rw [same] at placed
      have word := wordsFrom_all inside c placed
      rw [isWordChar_fold word, word]

theorem replaceParam_eq {token : String} (plain : Text.IsPlain param.toList)
    (even : FoldsEvenly token.toList) :
    replaceParam token (param, argument) = substitute [(param, argument)] token := by
  rw [replaceParam, replaceWord_eq _ plain even rfl, substitute]
  congr 1
  refine mapWords_congr ?_
  intro w _
  have compared : w.map Text.foldChar = param.toList.map Text.foldChar ↔
      Text.alike (String.ofList w) param = true := by
    rw [Text.alike_iff, String.toList_ofList]
  simp only [put_cons, compared]
  rfl

theorem substitute_first (plain : ∀ b ∈ bindings, Text.IsPlain b.1.toList) (token : String) :
    substitute bindings (substitute [(param, argument)] token) =
      substitute ((param, substitute bindings argument) :: bindings) token := by
  simp only [substitute, String.toList_ofList, mapWords_mapWords]
  congr 1
  refine mapWords_congr ?_
  intro w inside
  rw [put_cons, put_cons]
  split
  · rw [mapWords_bracketed (put_nil plain), bracketed, String.toList_ofList]
  · exact mapWords_word _ (wordsFrom_all inside)

theorem foldl_replaceParam (regular : Regular bindings) {token : String}
    (even : FoldsEvenly token.toList) :
    bindings.foldl replaceParam token = substitute (inTurn bindings) token := by
  induction bindings generalizing token with
  | nil =>
    have unchanged : mapWords (put []) [] token.toList = token.toList :=
      mapWords_self fun w _ => rfl
    rw [List.foldl_nil, inTurn, substitute, unchanged, String.ofList_toList]
  | cons b later ih =>
    obtain ⟨param, argument⟩ := b
    have alone : Regular [(param, argument)] :=
      ⟨by simpa using regular.params (param, argument) (by simp),
        by simpa using regular.arguments (param, argument) (by simp)⟩
    have plain : Text.IsPlain param.toList := regular.params (param, argument) (by simp)
    rw [List.foldl_cons, replaceParam_eq plain even, ih regular.tail, substitute_first, inTurn]
    · exact (forall_params_inTurn (P := fun param => Text.IsPlain param.toList)).2
        regular.tail.params
    · rw [substitute, String.toList_ofList]
      exact put_even alone even

theorem count_bracketed (argument : String) :
    (bracketed argument).count '(' = argument.toList.count '(' + 1 := by
  simp [bracketed]

theorem count_word (all : ∀ c ∈ w, isWordChar c = true) : w.count '(' = 0 := by
  rw [List.count_eq_zero]
  intro member
  cases all '(' member

theorem opens_put (bindings : List (String × String)) (all : ∀ c ∈ w, isWordChar c = true) :
    Opens (put bindings) id w := by
  unfold Opens
  rcases put_cases bindings w with ⟨b, -, same⟩ | ⟨-, same⟩
  · rw [same, id, count_word all, count_bracketed]
    exact ⟨Nat.zero_le _, fun equal => absurd equal (Nat.succ_ne_zero _)⟩
  · rw [same]
    exact ⟨Nat.le_refl _, fun _ => rfl⟩

theorem put_eq_self_iff (all : ∀ c ∈ w, isWordChar c = true) :
    put bindings w = w ↔ ∀ b ∈ bindings, Text.alike (String.ofList w) b.1 = false := by
  refine ⟨?_, put_unbound⟩
  intro same
  rcases put_cases bindings w with ⟨b, -, bound⟩ | ⟨unbound, -⟩
  · have brackets := count_bracketed b.2
    rw [← bound, same, count_word all] at brackets
    omega
  · exact unbound

theorem substitute_eq_self_iff (bindings : List (String × String)) (text : String) :
    substitute bindings text = text ↔ ∀ b ∈ bindings, ¬ HasWord text b.1 := by
  have mapped : substitute bindings text = text ↔
      mapWords (put bindings) [] text.toList = mapWords id [] text.toList := by
    rw [mapWords_self (f := id) fun w _ => rfl, substitute, ← String.toList_inj,
      String.toList_ofList]
  rw [mapped, mapWords_eq_iff fun w inside => opens_put bindings (wordsFrom_all inside)]
  constructor
  · rintro same b bound ⟨w, inside, alike⟩
    rw [(put_eq_self_iff (wordsFrom_all inside)).1 (same w inside) b bound] at alike
    cases alike
  · intro missing w inside
    refine put_unbound ?_
    intro b bound
    rw [← Bool.not_eq_true]
    intro alike
    exact missing b bound ⟨w, inside, alike⟩

theorem opens_substitute (bindings : List (String × String)) (text : String) :
    text.toList.count '(' ≤ (substitute bindings text).toList.count '(' ∧
      ((substitute bindings text).toList.count '(' = text.toList.count '(' →
        substitute bindings text = text) := by
  have opens : ∀ w ∈ wordsFrom [] text.toList, Opens (put bindings) id w :=
    fun w inside => opens_put bindings (wordsFrom_all inside)
  obtain ⟨less, same⟩ := opens_mapWords opens
  rw [mapWords_self (f := id) fun w _ => rfl] at less same
  rw [substitute, String.toList_ofList]
  refine ⟨less, ?_⟩
  intro equal
  rw [mapWords_self (same equal), String.ofList_toList]

theorem opens_inTurn (bindings : List (String × String)) (w : List Char) :
    Opens (put (inTurn bindings)) (put bindings) w := by
  induction bindings with
  | nil => exact ⟨Nat.le_refl _, fun _ => rfl⟩
  | cons b later ih =>
    obtain ⟨param, argument⟩ := b
    unfold Opens
    rw [inTurn, put_cons, put_cons]
    split
    · obtain ⟨less, same⟩ := opens_substitute (inTurn later) argument
      rw [count_bracketed, count_bracketed]
      refine ⟨Nat.succ_le_succ less, ?_⟩
      intro equal
      rw [same (by omega)]
    · exact ih

theorem hasWord_inTurn {text : String} :
    (∀ b ∈ inTurn bindings, ¬ HasWord text b.1) ↔ ∀ b ∈ bindings, ¬ HasWord text b.1 :=
  forall_params_inTurn (P := fun param => ¬ HasWord text param)

theorem put_inTurn_iff (distinct : bindings.Pairwise fun b b' => Text.alike b.1 b'.1 = false)
    (text : String) :
    (∀ w ∈ wordsFrom [] text.toList, put (inTurn bindings) w = put bindings w) ↔
      bindings.Pairwise fun earlier later =>
        HasWord text earlier.1 → ¬ HasWord earlier.2 later.1 := by
  induction bindings with
  | nil => simp [inTurn]
  | cons b later ih =>
    obtain ⟨param, argument⟩ := b
    rw [List.pairwise_cons] at distinct ⊢
    obtain ⟨first, others⟩ := distinct
    rw [← ih others]
    -- A word that is the first parameter is none of the others.
    have unbound {w : List Char} (alike : Text.alike (String.ofList w) param = true) :
        ∀ b ∈ later, Text.alike (String.ofList w) b.1 = false := by
      intro b bound
      have apart := first b bound
      rw [← Bool.not_eq_true, Text.alike_iff] at apart ⊢
      rw [Text.alike_iff] at alike
      exact fun same => apart (alike.symm.trans same)
    constructor
    · intro same
      constructor
      · rintro b bound ⟨w, inside, alike⟩
        have argued := same w inside
        rw [inTurn, put_cons, put_cons, if_pos alike, if_pos alike] at argued
        have kept : substitute (inTurn later) argument = argument := by
          simpa [bracketed, String.toList_inj] using argued
        exact hasWord_inTurn.1 ((substitute_eq_self_iff _ _).1 kept) b bound
      · intro w inside
        by_cases alike : Text.alike (String.ofList w) param = true
        · rw [put_unbound (unbound alike), put_unbound]
          exact (forall_params_inTurn
            (P := fun param => Text.alike (String.ofList w) param = false)).2 (unbound alike)
        · have others := same w inside
          rwa [inTurn, put_cons, put_cons, if_neg alike, if_neg alike] at others
    · rintro ⟨untouched, same⟩ w inside
      rw [inTurn, put_cons, put_cons]
      split
      · rename_i alike
        rw [(substitute_eq_self_iff (inTurn later) argument).2]
        exact hasWord_inTurn.2 fun b bound => untouched b bound ⟨w, inside, alike⟩
      · exact same w inside

theorem expandToken_inTurn (regular : Regular bindings) {token : String}
    (even : FoldsEvenly token.toList) (unnamed : ∀ b ∈ bindings, Text.alike token b.1 = false) :
    expandToken bindings token = substitute (inTurn bindings) token := by
  have none : (bindings.find? fun b => Text.alike token b.1) = none := by simpa using unnamed
  rw [← foldl_replaceParam regular even]
  unfold expandToken
  rw [none]

theorem inTurn_eq_iff (distinct : bindings.Pairwise fun b b' => Text.alike b.1 b'.1 = false)
    (token : String) :
    substitute (inTurn bindings) token = substitute bindings token ↔
      bindings.Pairwise fun earlier later =>
        HasWord token earlier.1 → ¬ HasWord earlier.2 later.1 := by
  rw [← put_inTurn_iff distinct, ← mapWords_eq_iff fun w _ => opens_inTurn bindings w, substitute,
    substitute, String.ofList_inj]

end

/-- How a token that is no parameter comes out: as if all parameters had been put in at once, with
arguments that the later ones have been put into. -/
def PutInTurn (bindings : List (String × String)) (token expanded : String) : Prop :=
  FoldsEvenly token.toList → (∀ b ∈ bindings, Text.alike token b.1 = false) →
    expanded = substitute (inTurn bindings) token ∧
    (expanded = substitute bindings token ↔
      bindings.Pairwise fun earlier later => HasWord token earlier.1 → ¬ HasWord earlier.2 later.1)

/-- An invocation puts its arguments in one after the other. It is as if they were put in at once
exactly for the tokens where no argument that is used has a later parameter among its words. -/
theorem parameters_are_put_in_turn (m : Macro) (arguments : List String) (outer : Scope)
    (complete : arguments.length = m.params.length)
    (words : ∀ param ∈ m.params, Text.IsPlain param.toList)
    (distinct : m.params.Pairwise fun param param' => Text.alike param param' = false)
    (even : ∀ argument ∈ arguments, FoldsEvenly argument.toList) :
    ∃ counted lines, m.expand arguments outer = .ok (counted, lines) ∧
      List.Forall₂ (fun line line' =>
          List.Forall₂ (PutInTurn (m.params.zip arguments)) line.tokens line'.tokens)
        m.body lines := by
  have params : (m.params.zip arguments).map Prod.fst = m.params :=
    List.map_fst_zip (Nat.le_of_eq complete.symm)
  have apart : (m.params.zip arguments).Pairwise fun b b' => Text.alike b.1 b'.1 = false := by
    rw [← params] at distinct
    exact List.pairwise_map.1 distinct
  have regular : Regular (m.params.zip arguments) := by
    constructor
    · intro b member
      exact words b.1 (List.of_mem_zip member).1
    · intro b member
      exact even b.2 (List.of_mem_zip member).2
  refine ⟨_, _, if_neg (by simp [complete]), ?_⟩
  rw [List.forall₂_map_right_iff, List.forall₂_same]
  intro line _
  change List.Forall₂ _ line.tokens (line.tokens.map (expandToken (m.params.zip arguments)))
  rw [List.forall₂_map_right_iff, List.forall₂_same]
  intro token _ evenToken unnamed
  rw [expandToken_inTurn regular evenToken unnamed]
  exact ⟨rfl, inTurn_eq_iff apart token⟩

def sum : Macro :=
  { name := "sum", params := ["u", "v"],
    body := [{ tokens := ["DAT", "u+v"], file := "sum", number := 2 }] }

-- The second argument comes into the first one, which is a name of the caller.
theorem parameters_are_put_in_turn_twice :
    (∀ param ∈ sum.params, Text.IsPlain param.toList) ∧
    (∀ argument ∈ ["v", "1"], FoldsEvenly argument.toList) ∧
    ∃ counted lines, sum.expand ["v", "1"] [] = .ok (counted, lines) ∧
      lines.map Line.tokens = [["DAT", "((1))+(1)"]] := by
  have words : ∀ param ∈ sum.params, Text.IsPlain param.toList := by
    intro param member
    have named : param = "u" ∨ param = "v" := by simpa [sum] using member
    rcases named with rfl | rfl <;> exact ⟨by decide, by decide⟩
  have even : ∀ argument ∈ ["v", "1"], FoldsEvenly argument.toList := by
    unfold FoldsEvenly
    decide
  obtain ⟨counted, lines, expanded, placed⟩ :=
    parameters_are_put_in_turn sum ["v", "1"] [] rfl words (by decide) even
  refine ⟨words, even, counted, lines, expanded, ?_⟩
  obtain ⟨line, others, tokens, none, rfl⟩ := List.forall₂_cons_left_iff.1 placed
  obtain ⟨first, operands, operation, after, same⟩ := List.forall₂_cons_left_iff.1 tokens
  obtain ⟨second, rest, operand, done, rfl⟩ := List.forall₂_cons_left_iff.1 after
  cases none
  cases done
  unfold PutInTurn FoldsEvenly at operation operand
  have name := (operation (by decide) (by decide)).1
  have value := (operand (by decide) (by decide)).1
  rw [List.map_singleton, same, name, value]
  decide +kernel

-- With `v` and `1` for its parameters `u` and `v`, the sum is that of 1 and 1 and not that of `v`
-- and 1.
theorem arguments_are_searched :
    (sum.expand ["v", "1"] []).toOption.map (fun expanded => expanded.2.map Line.tokens) =
      some [["DAT", "((1))+(1)"]] ∧
    substitute [("u", "v"), ("v", "1")] "u+v" = "(v)+(1)" := by
  decide +kernel

end WordAsm.Macro
