import Osmium.Heap
import Osmium.Lib.Tiling
import Osmium.Lib.Loops

namespace Osmium.Heap
open Lib

/-- A block of the region: free, or carved out for a payload. -/
abbrev Block := Tile (Option Live)

def isFree (b : Block) : Bool := b.kind.isNone

def frees (ts : List Block) : List Block := ts.filter isFree

def lives (ts : List Block) : List Live := ts.filterMap Tile.kind

theorem frees_append (xs ys : List Block) : frees (xs ++ ys) = frees xs ++ frees ys :=
  List.filter_append ..

theorem frees_cons_free (h : b.kind = none) (ts : List Block) : frees (b :: ts) = b :: frees ts := by
  simp [frees, isFree, h]

theorem frees_cons_live (h : b.kind = some a) (ts : List Block) : frees (b :: ts) = frees ts := by
  simp [frees, isFree, h]

theorem frees_mem (h : t ∈ frees ts) : t ∈ ts ∧ t.kind = none := by
  simpa [frees, isFree] using h

theorem lives_append (xs ys : List Block) : lives (xs ++ ys) = lives xs ++ lives ys :=
  List.filterMap_append ..

def bytes (ts : List Block) : Nat := (ts.map Tile.size).sum

theorem bytes_append (xs ys : List Block) : bytes (xs ++ ys) = bytes xs + bytes ys := by
  simp [bytes]

theorem bytes_cons (t : Block) (ts : List Block) : bytes (t :: ts) = t.size + bytes ts := by
  simp [bytes]

/-- The heap's region cut into free and live blocks, with the free ones on the
list and every live one recorded in front of its payload. -/
structure Partition (L : Layout) (m : Mem) (h : Heap) (ts : List Block) : Prop where
  tiles : Tiles L.heapStart (L.heapStart + heapSize) ts
  grain : ∀ t ∈ ts, t.start % 16 = 0 ∧ t.size % 16 = 0 ∧ 32 ≤ t.size
  list : Seg m h.head (frees ts) 0
  freeBytes : h.freeBytes = bytes (frees ts)
  header : ∀ t ∈ ts, ∀ a, t.kind = some a → t.start + 16 ≤ a.ptr ∧ a.ptr + a.size ≤ t.stop ∧
    load64 m (a.ptr - 16) = t.start ∧ load64 m (a.ptr - 16 + 8) = t.size
  maximal : ts.IsChain (fun s t => ¬(s.kind = none ∧ t.kind = none))

theorem checked_ok (h : x < 2 ^ 64) : checked x = .ok x := if_pos h

theorem checked_eq (h : checked x = .ok y) : y = x ∧ x < 2 ^ 64 := by
  unfold checked at h
  split at h
  · exact ⟨(Except.ok.inj h).symm, by assumption⟩
  · cases h

/-- Clearing the low bits rounds down. -/
theorem and_mask (y : Nat) (hk : k ≤ 64) (hy : y < 2 ^ 64) :
    y &&& (2 ^ 64 - 1 - (2 ^ k - 1)) = y / 2 ^ k * 2 ^ k := by
  apply Nat.eq_of_testBit_eq
  intro i
  have hmask : 2 ^ 64 - 1 - (2 ^ k - 1) = (2 ^ (64 - k) - 1) * 2 ^ k := by
    have hp : 2 ^ 64 = 2 ^ (64 - k) * 2 ^ k := by rw [← Nat.pow_add]; congr 1; omega
    have h1 : 1 ≤ 2 ^ k := Nat.one_le_two_pow
    rw [Nat.sub_mul, ← hp]
    omega
  rw [hmask, Nat.testBit_and, Nat.testBit_mul_two_pow, Nat.testBit_mul_two_pow,
    Nat.testBit_two_pow_sub_one, Nat.testBit_div_two_pow]
  by_cases hi : k ≤ i
  · rw [Nat.sub_add_cancel hi]
    by_cases hb : i < 64
    · have : i - k < 64 - k := by omega
      simp [hi, this]
    · have : y.testBit i = false :=
        Nat.testBit_lt_two_pow (Nat.lt_of_lt_of_le hy (Nat.pow_le_pow_right (by omega) (by omega)))
      simp [this]
  · simp [hi]

/-- The least multiple of `a` from `x` on. -/
def roundUp (x a : Nat) : Nat := (x + a - 1) / a * a

theorem roundUp_mod (x a : Nat) : roundUp x a % a = 0 := Nat.mul_mod_left ..

theorem le_roundUp (x : Nat) (ha : 0 < a) : x ≤ roundUp x a := by
  have hd := Nat.div_add_mod (x + a - 1) a
  have hm := Nat.mod_lt (x + a - 1) ha
  rw [Nat.mul_comm] at hd
  unfold roundUp
  omega

theorem roundUp_lt (x : Nat) (ha : 0 < a) : roundUp x a < x + a := by
  have hd := Nat.div_mul_le_self (x + a - 1) a
  unfold roundUp
  omega

theorem alignUp_eq (hk : k ≤ 63) (hx : x + 2 ^ k < 2 ^ 64) :
    alignUp x (2 ^ k) = .ok (roundUp x (2 ^ k)) := by
  have h1 : 1 ≤ 2 ^ k := Nat.one_le_two_pow
  unfold alignUp
  rw [checked_ok hx, ok_bind, and_mask _ (by omega) (by omega)]
  rfl

theorem setBlock_off (m : Mem) (b n next c k : Nat) (h : Apart b 16 c k) :
    SameOn m (setBlock m b n next) c k := by
  unfold Apart at h
  exact (store64_off _ _ _ _ _ (by unfold Apart; omega)).trans
    (store64_off _ _ _ _ _ (by unfold Apart; omega))

theorem setBlock_loads (m : Mem) (b n next : Nat) (hn : n < 2 ^ 64) (hx : next < 2 ^ 64) :
    load64 (setBlock m b n next) b = n ∧ load64 (setBlock m b n next) (b + 8) = next := by
  unfold setBlock
  rw [load64_store64_off _ _ _ _ (by unfold Apart; omega), load64_store64 _ _ _ hn,
    load64_store64 _ _ _ hx]
  exact ⟨rfl, rfl⟩

/-- Put a block with its header in front of a segment, or leave both alone. -/
theorem seg_setBlock {m : Mem} {ts : List Block} (h : Seg m a ts z) (keep : Prop) [Decidable keep]
    (hn : keep → n < 2 ^ 64) (ha : a < 2 ^ 64)
    (hap : keep → ∀ t ∈ ts, Apart b 16 t.start 16) :
    Seg (if keep then setBlock m b n a else m) (if keep then b else a)
      ((if keep then [⟨b, n, none⟩] else []) ++ ts) z := by
  by_cases hk : keep
  · simp only [if_pos hk, List.singleton_append]
    obtain ⟨hsize, hnext⟩ := setBlock_loads m b n a (hn hk) ha
    refine ⟨rfl, hsize, ?_⟩
    dsimp only
    rw [hnext]
    exact h.congr (fun t ht => setBlock_off _ _ _ _ _ _ (hap hk t ht))
  · simpa only [if_neg hk, List.nil_append] using h

theorem lastStart_mem {ts : List Block} (hne : ts ≠ []) : ∃ t ∈ ts, lastStart ts = t.start := by
  refine ⟨ts.getLast hne, List.getLast_mem hne, ?_⟩
  unfold lastStart
  rw [List.getLast?_eq_getLast_of_ne_nil hne]
  rfl

/-- `link` closes the gap between what precedes a block and what replaces it. -/
theorem seg_link {m : Mem} {us vs : List Block} (hu : Seg m h.head us x)
    (hv : Seg m y vs 0) (hy : y < 2 ^ 64) (hpos : ∀ t ∈ us, t.start ≠ 0)
    (hd : us.Pairwise (fun s t => s.start + 16 ≤ t.start))
    (hap : ∀ s ∈ us, ∀ t ∈ vs, s.start + 16 ≤ t.start) :
    Seg (link m h (lastStart us) y).1 (link m h (lastStart us) y).2.head (us ++ vs) 0 := by
  by_cases hne : us = []
  · subst hne
    simpa [link, lastStart_nil] using hv
  · obtain ⟨t, ht, he⟩ := lastStart_mem hne
    have hl : lastStart us ≠ 0 := by
      rw [he]
      exact hpos t ht
    unfold link
    rw [if_neg hl]
    refine seg_append.mpr ⟨y, hu.relink hy hd hne, hv.congr ?_⟩
    intro s hs
    have := hap t ht s hs
    rw [he]
    exact store64_off _ _ _ _ _ (by unfold Apart; omega)

theorem link_freeBytes (m : Mem) (h : Heap) (p b : Nat) :
    (link m h p b).2.freeBytes = h.freeBytes := by
  unfold link
  split <;> rfl

/-- Only the predecessor's link is written. -/
theorem link_off (m : Mem) (h : Heap) (p b c k : Nat) (hc : p ≠ 0 → Apart (p + 8) 8 c k) :
    SameOn m (link m h p b).1 c k := by
  unfold link
  split
  · exact SameOn.refl m c k
  · rename_i hp
    exact store64_off _ _ _ _ _ (hc hp)

end Osmium.Heap
