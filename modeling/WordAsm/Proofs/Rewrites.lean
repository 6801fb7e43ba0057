import WordAsm.Image.Decode

/-!
Meanings of instructions with a literal. A rewrite takes one mnemonic with a literal to another
one; it keeps what is computed from the first operand, and where the first operand is the program
counter it keeps where control goes.
-/
namespace WordAsm

namespace BasicOp

/-- What an instruction leaves in its first operand, by the values of both. Overflow is not
part of it. -/
def compute (op : BasicOp) (a b : UInt16) : Option UInt16 :=
  match op with
  | set => some b
  | add => some (a + b)
  | sub => some (a - b)
  | mul => some (a * b)
  | div => some (a / b)
  | mod => some (a % b)
  | shl => some (UInt16.ofNat (a.toNat <<< b.toNat))
  | shr => some (UInt16.ofNat (a.toNat >>> b.toNat))
  | and => some (a &&& b)
  | bor => some (a ||| b)
  | xor => some (a ^^^ b)
  | ife | ifn | ifg | ifb => none

def destination (next : UInt16) (op : BasicOp) (v : UInt16) : Option UInt16 :=
  match op with
  | set => some v
  | add => some (next + v)
  | sub => some (next - v)
  | _ => none

/-- Mnemonics with their literals before and after substitution. -/
inductive Rewrite (next : UInt16) : BasicOp → UInt16 → BasicOp → UInt16 → Prop where
  | jump (v : UInt16) : Rewrite next set v add (v - next)
  | add (v : UInt16) : Rewrite next add v sub (-v)
  | sub (v : UInt16) : Rewrite next sub v add (-v)
  | mul {v : UInt16} {k : Nat} (power : v.toNat = 1 <<< k) (bound : k < 16) :
      Rewrite next mul v shl (UInt16.ofNat k)
  | div {v : UInt16} {k : Nat} (power : v.toNat = 1 <<< k) (bound : k < 16) :
      Rewrite next div v shr (UInt16.ofNat k)
  | mod {v : UInt16} {k : Nat} (power : v.toNat = 1 <<< k) (bound : k < 16) :
      Rewrite next mod v and (UInt16.ofNat (1 <<< k - 1))
  | trans {op op' op'' : BasicOp} {v v' v'' : UInt16} (first : Rewrite next op v op' v')
      (second : Rewrite next op' v' op'' v'') : Rewrite next op v op'' v''

theorem mul_power {v : UInt16} {k : Nat} (power : v.toNat = 1 <<< k) (bound : k < 16) (x : UInt16) :
    UInt16.ofNat (x.toNat <<< (UInt16.ofNat k).toNat) = x * v := by
  have short : (UInt16.ofNat k).toNat = k := by
    rw [UInt16.toNat_ofNat']
    omega
  apply UInt16.toNat_inj.1
  rw [short, UInt16.toNat_ofNat', UInt16.toNat_mul, power, Nat.one_shiftLeft,
    Nat.shiftLeft_eq]

theorem div_power {v : UInt16} {k : Nat} (power : v.toNat = 1 <<< k) (bound : k < 16) (x : UInt16) :
    UInt16.ofNat (x.toNat >>> (UInt16.ofNat k).toNat) = x / v := by
  have short : (UInt16.ofNat k).toNat = k := by
    rw [UInt16.toNat_ofNat']
    omega
  have fits : x.toNat / 2 ^ k < 2 ^ 16 := Nat.lt_of_le_of_lt (Nat.div_le_self _ _) x.toNat_lt
  apply UInt16.toNat_inj.1
  rw [short, UInt16.toNat_ofNat', UInt16.toNat_div, power, Nat.one_shiftLeft,
    Nat.shiftRight_eq_div_pow,
    Nat.mod_eq_of_lt fits]

theorem mod_power {v : UInt16} {k : Nat} (power : v.toNat = 1 <<< k) (x : UInt16) :
    x &&& UInt16.ofNat (1 <<< k - 1) = x % v := by
  rw [Nat.one_shiftLeft] at power ⊢
  have fits : 2 ^ k - 1 < 2 ^ 16 := by
    have bound := v.toNat_lt
    omega
  apply UInt16.toNat_inj.1
  rw [UInt16.toNat_and, UInt16.toNat_ofNat', Nat.mod_eq_of_lt fits,
    Nat.and_two_pow_sub_one_eq_mod, UInt16.toNat_mod, power]

theorem compute_of_rewrite {next v v' : UInt16} {op op' : BasicOp}
    (rewritten : Rewrite next op v op' v') (arithmetic : op ≠ set) :
    op' ≠ set ∧ op ∈ [BasicOp.add, .sub, .mul, .div, .mod] ∧
      ∀ x, ∃ y, op.compute x v = some y ∧ op'.compute x v' = some y := by
  induction rewritten with
  | jump v => exact absurd rfl arithmetic
  | add v =>
    refine ⟨by decide, by decide, ?_⟩
    intro x
    exact ⟨x + v, rfl, by rw [compute, UInt16.sub_neg]⟩
  | sub v =>
    refine ⟨by decide, by decide, ?_⟩
    intro x
    exact ⟨x - v, rfl, by rw [compute, UInt16.sub_eq_add_neg]⟩
  | mul power bound =>
    refine ⟨by decide, by decide, ?_⟩
    intro x
    exact ⟨_, rfl, by rw [compute, mul_power power bound]⟩
  | div power bound =>
    refine ⟨by decide, by decide, ?_⟩
    intro x
    exact ⟨_, rfl, by rw [compute, div_power power bound]⟩
  | mod power bound =>
    refine ⟨by decide, by decide, ?_⟩
    intro x
    exact ⟨_, rfl, by rw [compute, mod_power power]⟩
  | trans first second ih ih' =>
    obtain ⟨middle, member, same⟩ := ih arithmetic
    obtain ⟨last, _, same'⟩ := ih' middle
    refine ⟨last, member, ?_⟩
    intro x
    obtain ⟨y, before, between⟩ := same x
    obtain ⟨y', between', after⟩ := same' x
    rw [between] at between'
    cases between'
    exact ⟨y, before, after⟩

theorem destination_of_rewrite {next v v' w : UInt16} {op op' : BasicOp}
    (rewritten : Rewrite next op v op' v') (goes : op.destination next v = some w) :
    op'.destination next v' = some w := by
  induction rewritten with
  | jump v =>
    cases goes
    rw [destination, UInt16.add_comm, UInt16.sub_add_cancel]
  | add v =>
    cases goes
    rw [destination, UInt16.sub_neg]
  | sub v =>
    cases goes
    rw [destination, UInt16.sub_eq_add_neg]
  | mul power bound => cases goes
  | div power bound => cases goes
  | mod power bound => cases goes
  | trans first second ih ih' => exact ih' (ih goes)

theorem relative_of_rewrite {next v v' : UInt16} {op op' : BasicOp}
    (rewritten : Rewrite next op v op' v') (moves : op = set ∨ op = add ∨ op = sub) :
    op' = add ∨ op' = sub := by
  induction rewritten with
  | jump v => exact .inl rfl
  | add v => exact .inr rfl
  | sub v => exact .inl rfl
  | mul power bound => simp at moves
  | div power bound => simp at moves
  | mod power bound => simp at moves
  | trans first second ih ih' => exact ih' (.inr (ih moves))

theorem destination_shift {next v w : UInt16} {op : BasicOp} (relative : op = add ∨ op = sub)
    (goes : op.destination next v = some w) (shift : UInt16) :
    op.destination (next + shift) v = some (w + shift) := by
  rcases relative with rfl | rfl
  · cases goes
    rw [destination, UInt16.add_assoc, UInt16.add_comm shift, UInt16.add_assoc]
  · cases goes
    rw [destination, UInt16.sub_eq_add_neg, UInt16.sub_eq_add_neg, UInt16.add_assoc,
      UInt16.add_comm shift, UInt16.add_assoc]

end BasicOp

theorem Decoded.size_counter {op : BasicOp} {b : Argument} (single : b.extra = []) :
    (basic op .pc b).size = 1 := by
  simp only [Decoded.size, arguments, List.flatMap_cons, List.flatMap_nil, single]
  rfl

theorem Decoded.target_of_destination {op : BasicOp} {b : Argument} {v w : UInt16} {address : Nat}
    (literal : b.literal? = some v)
    (goes : op.destination (UInt16.ofNat (address + (basic op .pc b).size)) v = some w) :
    (basic op .pc b).target? address = some (w.toNat, .jump) := by
  cases op with
  | set =>
    cases goes
    simp only [target?, literal, Option.map_some]
  | add =>
    cases goes
    simp only [target?, literal, Option.map_some, addressSpace, UInt16.toNat_add,
      UInt16.toNat_ofNat', Nat.mod_add_mod]
  | sub =>
    cases goes
    have bound := v.toNat_lt
    simp only [target?, literal, Option.map_some, addressSpace, UInt16.toNat_sub,
      UInt16.toNat_ofNat']
    congr 2
    omega
  | _ => cases goes

end WordAsm
