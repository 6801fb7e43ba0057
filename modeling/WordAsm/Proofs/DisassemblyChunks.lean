import WordAsm.Proofs.DecodedWords
import WordAsm.Proofs.FlowClosure
import WordAsm.Image.Disassembly

/-!
The chunks of an image. They follow each other without a gap, no word is in two of them, and a
chunk of code holds the words of its instruction. A label is shown only where a chunk begins, and
there the chunk is code.
-/
namespace WordAsm.Disassembly

def cells (words : List UInt16) (marks : List Bool) : List Cell :=
  (words.zip ((decodeAll words).zip marks)).map fun (w, d, m) => Cell.mk w d m

theorem cells_cons (w : UInt16) (words : List UInt16) (m : Bool) (marks : List Bool) :
    cells (w :: words) (m :: marks) = ⟨w, .ofWords w words, m⟩ :: cells words marks := rfl

theorem map_word_cells {words : List UInt16} {marks : List Bool}
    (length : marks.length = words.length) : (cells words marks).map Cell.word = words := by
  induction words generalizing marks with
  | nil => rfl
  | cons w words ih =>
    cases marks with
    | nil => cases length
    | cons m marks =>
      rw [cells_cons, List.map_cons, ih (Nat.succ.inj length)]

namespace Chunk

def Follow (address : Nat) : List Chunk → Prop
  | [] => True
  | c :: rest => c.address = address ∧ c.words ≠ [] ∧ Follow (address + c.words.length) rest

theorem follow_consData {address : Nat} {chunks : List Chunk} (follow : Follow (address + 1) chunks)
    (w : UInt16) : Follow address (consData address w chunks) := by
  unfold consData
  split
  · rename_i a words rest
    obtain ⟨-, -, later⟩ := follow
    have place : address + (w :: words).length = address + 1 + words.length := by
      rw [List.length_cons]
      omega
    refine ⟨rfl, by simp [Chunk.words], ?_⟩
    rw [Chunk.words, place]
    exact later
  · exact ⟨rfl, by simp [Chunk.words], follow⟩

theorem words_consData (address : Nat) (w : UInt16) (chunks : List Chunk) :
    (consData address w chunks).flatMap words = w :: chunks.flatMap words := by
  unfold consData
  split <;> rfl

theorem mem_consData {address : Nat} {w : UInt16} {chunks : List Chunk} {c : Chunk}
    (member : c ∈ consData address w chunks) : c ∈ chunks ∨ ∃ ws, c = data address ws := by
  unfold consData at member
  split at member
  · rcases List.mem_cons.1 member with rfl | later
    · exact .inr ⟨_, rfl⟩
    · exact .inl (List.mem_cons_of_mem _ later)
  · rcases List.mem_cons.1 member with rfl | later
    · exact .inr ⟨_, rfl⟩
    · exact .inl later

theorem Follow.address_eq {address : Nat} {before after : List Chunk} {c : Chunk}
    (follow : Follow address (before ++ c :: after)) :
    c.address = address + (before.flatMap Chunk.words).length := by
  induction before generalizing address with
  | nil => exact follow.1
  | cons first before ih =>
    obtain ⟨-, -, later⟩ := follow
    rw [ih later, List.flatMap_cons, List.length_append]
    omega

theorem Follow.words_ne_nil {address : Nat} {before after : List Chunk} {c : Chunk}
    (follow : Follow address (before ++ c :: after)) : c.words ≠ [] := by
  induction before generalizing address with
  | nil => exact follow.2.1
  | cons first before ih => exact ih follow.2.2

theorem Follow.le_address {address : Nat} {chunks : List Chunk} (follow : Follow address chunks)
    {c : Chunk} (member : c ∈ chunks) : address ≤ c.address := by
  obtain ⟨before, after, rfl⟩ := List.append_of_mem member
  rw [follow.address_eq]
  omega

theorem Follow.address_lt {address : Nat} {chunks : List Chunk} (follow : Follow address chunks)
    {c : Chunk} (member : c ∈ chunks) :
    c.address < address + (chunks.flatMap Chunk.words).length := by
  obtain ⟨before, after, rfl⟩ := List.append_of_mem member
  have filled := List.length_pos_iff.2 follow.words_ne_nil
  rw [follow.address_eq, List.flatMap_append, List.flatMap_cons, List.length_append,
    List.length_append]
  omega

theorem Follow.split {address : Nat} {before after : List Chunk}
    (follow : Follow address (before ++ after)) :
    Follow address before ∧ Follow (address + (before.flatMap Chunk.words).length) after := by
  induction before generalizing address with
  | nil => exact ⟨trivial, follow⟩
  | cons c before ih =>
    obtain ⟨here, filled, later⟩ := follow
    obtain ⟨first, second⟩ := ih later
    refine ⟨⟨here, filled, first⟩, ?_⟩
    rwa [List.flatMap_cons, List.length_append, ← Nat.add_assoc]

theorem Follow.address_ne {address : Nat} {before after : List Chunk} {c : Chunk}
    (follow : Follow address (before ++ c :: after)) {other : Chunk}
    (member : other ∈ before ∨ other ∈ after) : other.address ≠ c.address := by
  induction before generalizing address with
  | nil =>
    obtain ⟨here, filled, later⟩ := follow
    rcases member with none | member
    · cases none
    · have least := later.le_address member
      have some := List.length_pos_iff.2 filled
      omega
  | cons first before ih =>
    obtain ⟨here, filled, later⟩ := follow
    rcases member with member | member
    · rcases List.mem_cons.1 member with rfl | member
      · have least := later.le_address (List.mem_append_right before (List.mem_cons_self (a := c)))
        have some := List.length_pos_iff.2 filled
        omega
      · exact ih later (.inl member)
    · exact ih later (.inr member)

/-- What a chunk is where code is marked: code holds the words of its instruction, and data begins
at a word that is no code. -/
def Fits (marks : List Bool) (address : Nat) : Chunk → Prop
  | code _ ws d => ws = d.words
  | data a _ => ∃ i, a = address + i ∧ marks[i]? = some false

theorem Fits.cons {marks : List Bool} {address : Nat} {c : Chunk} (m : Bool)
    (fits : Fits marks (address + 1) c) : Fits (m :: marks) address c := by
  cases c with
  | code a ws d => exact fits
  | data a ws =>
    obtain ⟨i, rfl, unmarked⟩ := fits
    exact ⟨i + 1, by omega, unmarked⟩

end Chunk

open Chunk

theorem size_pos (d : Decoded) : 0 < d.size := by
  unfold Decoded.size
  omega

theorem size_ofWords_le (w : UInt16) (rest : List UInt16) :
    (Decoded.ofWords w rest).size ≤ rest.length + 1 := by
  obtain ⟨later, split⟩ := (Decoded.ofWords_ok w rest).2
  have length := congrArg List.length split
  rw [List.length_cons, List.length_append, Decoded.length_words] at length
  omega

/-- How words are cut from an address on, where the first `skip` of them belong to the instruction
before them. -/
inductive Cuts : List UInt16 → List Bool → Nat → Nat → List Chunk → Prop
  | nil (address : Nat) : Cuts [] [] address 0 []
  | skip {words marks address k chunks} (w : UInt16) (m : Bool)
      (later : Cuts words marks (address + 1) k chunks) :
      Cuts (w :: words) (m :: marks) address (k + 1) chunks
  | data {words marks address chunks} (w : UInt16)
      (later : Cuts words marks (address + 1) 0 chunks) :
      Cuts (w :: words) (false :: marks) address 0 (consData address w chunks)
  | code {words marks address chunks} (w : UInt16)
      (later : Cuts words marks (address + 1) ((Decoded.ofWords w words).size - 1) chunks) :
      Cuts (w :: words) (true :: marks) address 0
        (.code address (Decoded.ofWords w words).words (.ofWords w words) :: chunks)

theorem cuts_cut {words : List UInt16} {marks : List Bool} (length : marks.length = words.length)
    (address : Nat) {skip : Nat} (bound : skip ≤ words.length) :
    Cuts words marks address skip (cut address skip (cells words marks)) := by
  induction words generalizing marks address skip with
  | nil =>
    cases marks with
    | nil =>
      obtain rfl : skip = 0 := Nat.le_zero.1 bound
      exact .nil address
    | cons => cases length
  | cons w words ih =>
    cases marks with
    | nil => cases length
    | cons m marks =>
      have length' : marks.length = words.length := Nat.succ.inj length
      cases skip with
      | succ k => exact .skip w m (ih length' (address + 1) (Nat.le_of_succ_le_succ bound))
      | zero =>
        cases m with
        | false => exact .data w (ih length' (address + 1) (Nat.zero_le _))
        | true =>
          have most := size_ofWords_le w words
          have content :
              ((cells (w :: words) (true :: marks)).take (Decoded.ofWords w words).size).map
              Cell.word = (Decoded.ofWords w words).words := by
            rw [List.map_take, map_word_cells length, Decoded.words_ofWords]
          have cutting := Cuts.code w (ih length' (address + 1)
            (by omega : (Decoded.ofWords w words).size - 1 ≤ words.length))
          rw [← content] at cutting
          exact cutting

theorem Cuts.covers {words : List UInt16} {marks : List Bool} {address skip : Nat}
    {chunks : List Chunk} (cuts : Cuts words marks address skip chunks) :
    chunks.flatMap Chunk.words = words.drop skip := by
  induction cuts with
  | nil => rfl
  | skip w m later ih => rw [ih, List.drop_succ_cons]
  | data w later ih => rw [words_consData, ih, List.drop_zero, List.drop_zero]
  | @code words marks address chunks w later ih =>
    have least := size_pos (.ofWords w words)
    have rest : words.drop ((Decoded.ofWords w words).size - 1) =
        (w :: words).drop (Decoded.ofWords w words).size := by
      cases size : (Decoded.ofWords w words).size with
      | zero => omega
      | succ k => rfl
    rw [List.flatMap_cons, ih, rest, Chunk.words, ← Decoded.words_ofWords, List.take_append_drop,
      List.drop_zero]

theorem Cuts.follow {words : List UInt16} {marks : List Bool} {address skip : Nat}
    {chunks : List Chunk} (cuts : Cuts words marks address skip chunks) :
    Follow (address + skip) chunks := by
  induction cuts with
  | nil => exact trivial
  | @skip words marks address k chunks w m later ih =>
    have place : address + (k + 1) = address + 1 + k := by omega
    rw [place]
    exact ih
  | data w later ih => exact follow_consData ih w
  | @code words marks address chunks w later ih =>
    have least := size_pos (.ofWords w words)
    have place : address + (Decoded.ofWords w words).size =
        address + 1 + ((Decoded.ofWords w words).size - 1) := by omega
    refine ⟨rfl, ?_, ?_⟩
    · rw [Chunk.words, ← List.length_pos_iff, Decoded.length_words]
      exact least
    · rw [Chunk.words, Decoded.length_words, Nat.add_zero, place]
      exact ih

theorem Cuts.fits {words : List UInt16} {marks : List Bool} {address skip : Nat}
    {chunks : List Chunk} (cuts : Cuts words marks address skip chunks) :
    ∀ c ∈ chunks, c.Fits marks address := by
  induction cuts with
  | nil => simp
  | skip w m later ih => exact fun c member => (ih c member).cons m
  | data w later ih =>
    intro c member
    rcases mem_consData member with later | ⟨ws, rfl⟩
    · exact (ih c later).cons false
    · exact ⟨0, rfl, rfl⟩
  | code w later ih =>
    intro c member
    rcases List.mem_cons.1 member with rfl | later
    · rfl
    · exact (ih c later).cons true

theorem Cuts.arguments_fit {words : List UInt16} {marks : List Bool} {address skip : Nat}
    {chunks : List Chunk} (cuts : Cuts words marks address skip chunks) {a : Nat}
    {ws : List UInt16} {d : Decoded} (member : .code a ws d ∈ chunks) :
    ∀ b ∈ d.arguments, b.fits = true := by
  induction cuts with
  | nil => cases member
  | skip w m later ih => exact ih member
  | data w later ih =>
    rcases mem_consData member with later | ⟨_, same⟩
    · exact ih later
    · cases same
  | @code words marks address chunks w later ih =>
    rcases List.mem_cons.1 member with same | later
    · cases same
      exact (Decoded.ofWords_ok w words).1
    · exact ih later

theorem length_decodeAll (words : List UInt16) : (decodeAll words).length = words.length := by
  induction words with
  | nil => rfl
  | cons w words ih => rw [decodeAll, List.length_cons, List.length_cons, ih]

namespace Plan

/-- Which words of an image are code. -/
def marks (words : List UInt16) : List Bool := (Flow.code (decodeAll words).toArray).toList

theorem length_marks (words : List UInt16) : (marks words).length = words.length := by
  rw [marks, Array.length_toList, Flow.size_code, List.size_toArray, length_decodeAll]

theorem cuts_chunks (words : List UInt16) : Cuts words (marks words) 0 0 (ofWords words).chunks :=
  cuts_cut (length_marks words) 0 (Nat.zero_le _)

/-! Labels that are shown. -/

theorem getElem_visible {labels shown : Array (Option Transfer)} {chunks : List Chunk} {t : Nat}
    {kind : Transfer}
    (found : (chunks.foldl
      (fun shown c => shown.setIfInBounds c.address (labels.getD c.address none)) shown)[t]? =
        some (some kind)) :
    shown[t]? = some (some kind) ∨
      labels.getD t none = some kind ∧ ∃ c ∈ chunks, c.address = t := by
  induction chunks generalizing shown with
  | nil => exact .inl found
  | cons c chunks ih =>
    rcases ih found with before | ⟨labelled, other, member, place⟩
    · rw [Array.getElem?_setIfInBounds] at before
      split at before
      · rename_i same
        split at before
        · refine .inr ⟨?_, c, List.mem_cons_self, same⟩
          rw [← same]
          exact Option.some.inj before
        · cases before
      · exact .inl before
    · exact .inr ⟨labelled, other, List.mem_cons_of_mem _ member, place⟩

theorem getElem_of_shown {labels : Array (Option Transfer)} {t : Nat} {kind : Transfer}
    (shown : labels.getD t none = some kind) : labels[t]? = some (some kind) := by
  rw [Array.getD_eq_getD_getElem?] at shown
  cases found : labels[t]? with
  | none => simp [found] at shown
  | some label => simpa [found] using shown

theorem label_chunk {words : List UInt16} {t : Nat} {kind : Transfer}
    (shown : (ofWords words).labels.getD t none = some kind) :
    ∃ ws d, Chunk.code t ws d ∈ (ofWords words).chunks := by
  rcases getElem_visible (getElem_of_shown shown) with none | ⟨labelled, c, member, rfl⟩
  · rw [Array.getElem?_replicate] at none
    split at none <;> cases none
  · have marked : (marks words)[c.address]? = some true := by
      rw [marks, Array.getElem?_toList]
      exact Flow.code_labelled (getElem_of_shown labelled)
    cases c with
    | code a ws d => exact ⟨ws, d, member⟩
    | data a ws =>
      obtain ⟨i, place, unmarked⟩ := (cuts_chunks words).fits _ member
      rw [Nat.zero_add] at place
      rw [Chunk.address, place, unmarked] at marked
      cases marked

end Plan

end WordAsm.Disassembly
