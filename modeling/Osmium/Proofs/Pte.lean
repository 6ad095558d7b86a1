import Osmium.Vm

namespace Osmium.Vm
open Lib

theorem valid_iff (pte : Nat) : Valid pte ↔ pte % 2 = 1 := by
  unfold Valid
  rw [Nat.and_one_is_mod]
  omega

/-- Flags below bit 10 sit beside the page number without touching it. -/
theorem paToPte_or (pa : Nat) (hf : f < 1024) : paToPte pa ||| f = pa / 4096 * 1024 + f := by
  unfold paToPte
  rw [← Nat.shiftLeft_add_eq_or_of_lt (by omega : f < 2 ^ 10)]
  omega

theorem pteToPa_add (hp : p % 4096 = 0) (hb : p < 2 ^ 64) (hf : f < 1024) :
    pteToPa (p / 4096 * 1024 + f) = p := by
  unfold pteToPa
  omega

/-- An entry that points at a lower table: no permission bit, no reserved bit. -/
def Pointer (e : Nat) : Prop := e % 1024 = 1 ∧ e < 2 ^ 54

/-- The entry `walk` writes for a new table. -/
theorem dir_pte (hp : p % 4096 = 0) (hb : p < 2 ^ 32) :
    Valid (paToPte p ||| pteV) ∧ pteToPa (paToPte p ||| pteV) = p ∧
      (paToPte p ||| pteV) < 2 ^ 64 ∧ Pointer (paToPte p ||| pteV) := by
  unfold pteV
  rw [paToPte_or p (by omega : 1 < 1024), valid_iff]
  exact ⟨by omega, pteToPa_add hp (by omega) (by omega), by omega, by omega, by omega⟩

/-- The flags of a leaf mapped with `perm`. -/
def leafFlags (perm : Nat) : Nat := perm ||| pteA ||| pteD ||| pteV

theorem leaf_pte_eq (pa perm : Nat) :
    paToPte pa ||| perm ||| pteA ||| pteD ||| pteV = paToPte pa ||| leafFlags perm := by
  unfold leafFlags
  simp only [Nat.or_assoc]

theorem leafFlags_lt (hf : perm < 256) : leafFlags perm < 256 := by
  unfold leafFlags
  have h1 : perm ||| pteA < 2 ^ 8 := Nat.or_lt_two_pow hf (by decide)
  have h2 : perm ||| pteA ||| pteD < 2 ^ 8 := Nat.or_lt_two_pow h1 (by decide)
  exact Nat.or_lt_two_pow h2 (by decide)

theorem leafFlags_odd (perm : Nat) : leafFlags perm % 2 = 1 := by
  unfold leafFlags
  rw [Nat.or_mod_two_eq_one]
  exact Or.inr rfl

/-- The entry `map_pages` writes. -/
theorem leaf_pte (hp : p % 4096 = 0) (hb : p < 2 ^ 64) (hf : perm < 256) :
    Valid (paToPte p ||| leafFlags perm) ∧ pteToPa (paToPte p ||| leafFlags perm) = p ∧
      (paToPte p ||| leafFlags perm) < 2 ^ 64 ∧
      (paToPte p ||| leafFlags perm) % 1024 = leafFlags perm := by
  have hl := leafFlags_lt hf
  have ho := leafFlags_odd perm
  rw [paToPte_or p (by omega), valid_iff]
  refine ⟨by omega, pteToPa_add hp hb (by omega), by omega, by omega⟩

/-- Flag tests only see the low bits of an entry. -/
theorem flag_mod (pte : Nat) (hf : f < 1024) : pte &&& f = pte % 1024 &&& f := by
  have hlt : pte &&& f < 2 ^ 10 := Nat.and_lt_two_pow pte hf
  have h := Nat.and_mod_two_pow (a := pte) (b := f) (n := 10)
  rw [Nat.mod_eq_of_lt hlt, Nat.mod_eq_of_lt (by omega : f < 2 ^ 10)] at h
  exact h

/-- The permission bits of a mapped leaf are the ones it was mapped with. -/
theorem leaf_flag (hp : p % 4096 = 0) (hb : p < 2 ^ 64) (hperm : perm < 256)
    (hf : f &&& (pteA ||| pteD ||| pteV) = 0) (hlt : f < 1024) :
    (paToPte p ||| leafFlags perm) &&& f = perm &&& f := by
  rw [flag_mod _ hlt, (leaf_pte hp hb hperm).2.2.2]
  unfold leafFlags
  rw [Nat.or_assoc, Nat.or_assoc, Nat.and_or_distrib_right, Nat.and_comm _ f, Nat.and_comm _ f,
    ← Nat.or_assoc, hf, Nat.or_zero]

theorem vpn_lt (va level : Nat) : vpn va level < 512 := by
  unfold vpn
  exact Nat.and_lt_two_pow _ (by omega : 0x1ff < 2 ^ 9)

theorem vpn_eq (va level : Nat) : vpn va level = va / 2 ^ (12 + 9 * level) % 512 := by
  unfold vpn
  rw [show (0x1ff : Nat) = 2 ^ 9 - 1 from rfl, Nat.and_two_pow_sub_one_eq_mod,
    Nat.shiftRight_eq_div_pow]

theorem vpn_zero (va : Nat) : vpn va 0 = va / 4096 % 512 := vpn_eq va 0

theorem vpn_one (va : Nat) : vpn va 1 = va / 2097152 % 512 := vpn_eq va 1

theorem vpn_two (va : Nat) : vpn va 2 = va / 1073741824 % 512 := vpn_eq va 2

/-- The three indices of an Sv39 address determine its page. -/
theorem vpn_inj (ha : va < vaMax) (hb : vb < vaMax) :
    (∀ k ≤ 2, vpn va k = vpn vb k) ↔ va / 4096 = vb / 4096 := by
  have hm : vaMax = 274877906944 := rfl
  constructor
  · intro h
    have h0 := h 0 (by omega)
    have h1 := h 1 (by omega)
    have h2 := h 2 (by omega)
    simp only [vpn_zero, vpn_one, vpn_two] at h0 h1 h2
    omega
  · intro h k hk
    have hcases : k = 0 ∨ k = 1 ∨ k = 2 := by omega
    rcases hcases with rfl | rfl | rfl
    · simp only [vpn_zero]
      omega
    · simp only [vpn_one]
      omega
    · simp only [vpn_two]
      omega

end Osmium.Vm
