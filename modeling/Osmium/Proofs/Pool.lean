import Osmium.Kalloc
import Osmium.Lib.Loops
import Mathlib.Data.List.Nodup
import Mathlib.Data.List.Perm.Basic

namespace Osmium
open Lib

/-- All bytes that differ lie in one of the given pages. -/
def WritesIn (m m' : Mem) (ps : List Nat) : Prop :=
  ∀ x, (∀ p ∈ ps, ¬(p ≤ x ∧ x < p + 4096)) → m' x = m x

theorem WritesIn.refl (m : Mem) (ps : List Nat) : WritesIn m m ps := fun _ _ => rfl

theorem WritesIn.mono (h : WritesIn m m' ps) (hs : ∀ p ∈ ps, p ∈ qs) : WritesIn m m' qs :=
  fun x hx => h x (fun p hp => hx p (hs p hp))

theorem WritesIn.trans (h : WritesIn m m' ps) (h' : WritesIn m' m'' ps) : WritesIn m m'' ps :=
  fun x hx => (h' x hx).trans (h x hx)

/-- Distinct pages share no address. -/
theorem page_apart {p q : Nat} (hp : p % 4096 = 0) (hq : q % 4096 = 0) (hne : p ≠ q) :
    Apart p 4096 q 4096 := by
  unfold Apart
  omega

theorem WritesIn.same (h : WritesIn m m' ps) (hps : ∀ p ∈ ps, p % 4096 = 0)
    (hq : q % 4096 = 0) (hn : q ∉ ps) : SameOn m m' q 4096 := by
  intro x hl hu
  apply h
  intro p hp hx
  have hne : p ≠ q := fun he => hn (he ▸ hp)
  have ha := page_apart (hps p hp) hq hne
  unfold Apart at ha
  omega

theorem writesIn_of_same (p : Nat) (h : ∀ c k, Apart p 4096 c k → SameOn m m' c k) :
    WritesIn m m' [p] := by
  intro x hx
  have hn := hx p (by simp)
  exact h x 1 (by unfold Apart; omega) x (Nat.le_refl x) (by omega)

theorem fill_writesIn (m : Mem) (p : Nat) (b : UInt8) : WritesIn m (fill m p 4096 b) [p] :=
  writesIn_of_same p (fun c k h => fill_off m p 4096 b c k h)

theorem copy_writesIn (m : Mem) (src p n : Nat) (hn : n ≤ 4096) :
    WritesIn m (copy m src p n) [p] :=
  writesIn_of_same p (fun c k h => copy_off m src p n c k (by unfold Apart at *; omega))

theorem store64_writesIn (m : Mem) (p i v : Nat) (hi : i < 512) :
    WritesIn m (store64 m (p + 8 * i) v) [p] :=
  writesIn_of_same p (fun c k h => store64_off m (p + 8 * i) v c k (by unfold Apart at *; omega))

/-- The pages the allocator was seeded with: distinct, aligned, in range. -/
structure PagePool (allocStart : Nat) where
  pages : List Nat
  nodup : pages.Nodup
  page : ∀ p ∈ pages, p % 4096 = 0
  pos : ∀ p ∈ pages, 0 < p
  above : ∀ p ∈ pages, allocStart ≤ p
  below : ∀ p ∈ pages, p + 4096 ≤ physTop

/-- The free list is a chain of pages of the pool, each once, and `held` lists
the rest of the pool, the pages somebody was given. -/
def Pool (pool : PagePool allocStart) (P : Phys) (held : List Nat) : Prop :=
  ∃ free, Chain (load64 P.mem) P.head free ∧ P.freePages = free.length ∧
    (free ++ held).Perm pool.pages

theorem Kalloc.alloc_head (ha : alloc P = .ok (some p, P')) : p = P.head ∧ P.head ≠ 0 := by
  unfold alloc at ha
  dsimp only at ha
  split at ha
  · simp at ha
  · rename_i hz
    split at ha
    · simp at ha
    · simp only [Except.ok.injEq, Prod.mk.injEq, Option.some.injEq] at ha
      exact ⟨ha.1.symm, hz⟩

namespace Pool

variable {allocStart : Nat} {pool : PagePool allocStart} {P P' : Phys} {held held' : List Nat}

theorem perm (h : Pool pool P held) (hp : held.Perm held') : Pool pool P held' := by
  obtain ⟨free, hc, hn, hm⟩ := h
  exact ⟨free, hc, hn, (hp.symm.append_left free).trans hm⟩

theorem mem (h : Pool pool P held) (hp : p ∈ held) : p ∈ pool.pages := by
  obtain ⟨free, _, _, hm⟩ := h
  exact hm.mem_iff.mp (List.mem_append_right _ hp)

theorem page (h : Pool pool P held) (hp : p ∈ held) : p % 4096 = 0 := pool.page p (h.mem hp)

theorem bound (h : Pool pool P held) (hp : p ∈ held) : p < 2 ^ 32 := by
  have hb := pool.below p (h.mem hp)
  unfold physTop dramBase at hb
  omega

theorem nodup (h : Pool pool P held) : held.Nodup := by
  obtain ⟨free, _, _, hm⟩ := h
  exact (List.nodup_append.mp (hm.nodup_iff.mpr pool.nodup)).2.1

/-- A page at the head of the free list is in the pool and nobody holds it. -/
theorem head_fresh (h : Pool pool P held) (hn : P.head ≠ 0) :
    P.head ∈ pool.pages ∧ P.head ∉ held := by
  obtain ⟨free, hc, _, hm⟩ := h
  obtain ⟨rest, rfl, _⟩ := hc.head_ne hn
  refine ⟨hm.mem_iff.mp (by simp), ?_⟩
  have hd := hm.nodup_iff.mpr pool.nodup
  simp only [List.cons_append, List.nodup_cons, List.mem_append, not_or] at hd
  exact hd.1.2

/-- The list lives in the pages nobody holds. -/
theorem congr (h : Pool pool P held) (hh : P'.head = P.head) (hf : P'.freePages = P.freePages)
    (hs : ∀ q ∈ pool.pages, q ∉ held → SameOn P.mem P'.mem q 4096) : Pool pool P' held := by
  obtain ⟨free, hc, hn, hm⟩ := h
  have hd := hm.nodup_iff.mpr pool.nodup
  refine ⟨free, ?_, hf.trans hn, hm⟩
  rw [hh]
  apply hc.congr
  intro q hq
  have hqn : q ∉ held := fun hx => (List.nodup_append.mp hd).2.2 q hq q hx rfl
  have hsame := hs q (hm.mem_iff.mp (List.mem_append_left _ hq)) hqn
  exact load64_congr (hsame.mono (Nat.le_refl q) (by omega))

/-- Owners may write what they like into their pages. -/
theorem write (h : Pool pool P held) (hh : P'.head = P.head)
    (hf : P'.freePages = P.freePages) (hw : WritesIn P.mem P'.mem held) : Pool pool P' held :=
  h.congr hh hf (fun q hq hn => hw.same (fun _ hp => h.page hp) (pool.page q hq) hn)

theorem write_mem {m' : Mem} (h : Pool pool P held) (hw : WritesIn P.mem m' held) :
    Pool pool { P with mem := m' } held := h.write rfl rfl hw

/-- A failed allocation means an empty free list, and changes nothing. -/
theorem alloc_none (h : Pool pool P held) (ha : Kalloc.alloc P = .ok (none, P')) :
    P' = P ∧ P.freePages = 0 := by
  unfold Kalloc.alloc at ha
  dsimp only at ha
  split at ha
  · rename_i hz
    simp only [Except.ok.injEq, Prod.mk.injEq, true_and] at ha
    obtain ⟨free, hc, hn, _⟩ := h
    rw [hz] at hc
    rw [hc.head_zero] at hn
    exact ⟨ha.symm, hn⟩
  · split at ha <;> simp at ha

/-- A successful allocation hands out a page nobody held, cleared, and writes
nowhere else. -/
theorem alloc_some (h : Pool pool P held) (ha : Kalloc.alloc P = .ok (some p, P')) :
    Pool pool P' (p :: held) ∧ P'.freePages + 1 = P.freePages ∧
      WritesIn P.mem P'.mem [p] ∧ ∀ x, p ≤ x → x < p + 4096 → P'.mem x = 0 := by
  unfold Kalloc.alloc at ha
  dsimp only at ha
  split at ha
  · simp at ha
  · rename_i hz
    obtain ⟨hpool, _⟩ := h.head_fresh hz
    obtain ⟨free, hc, hn, hm⟩ := h
    obtain ⟨rest, rfl, ht⟩ := hc.head_ne hz
    split at ha
    · simp at ha
    · simp only [Except.ok.injEq, Prod.mk.injEq, Option.some.injEq] at ha
      obtain ⟨rfl, rfl⟩ := ha
      simp only [List.length_cons] at hn
      refine ⟨⟨rest, ?_, by simp [hn], ?_⟩, by simp [hn], fill_writesIn P.mem P.head 0,
        fun x hl hu => fill_on P.mem P.head 4096 0 hl hu⟩
      · apply ht.congr
        intro q hq
        have hd := hm.nodup_iff.mpr pool.nodup
        simp only [List.cons_append, List.nodup_cons, List.mem_append, not_or] at hd
        have hne : q ≠ P.head := fun he => hd.1.1 (he ▸ hq)
        have hqp : q ∈ pool.pages := hm.mem_iff.mp (by simp [hq])
        have hs := (fill_writesIn P.mem P.head 0).same
          (by intro r hr; rw [List.mem_singleton.mp hr]; exact pool.page _ hpool)
          (pool.page q hqp) (by simpa using hne)
        exact load64_congr (hs.mono (Nat.le_refl q) (by omega))
      · exact List.perm_middle.trans hm

/-- Allocation never panics on a well-formed list. -/
theorem alloc_total (h : Pool pool P held) : ∃ r, Kalloc.alloc P = .ok r := by
  unfold Kalloc.alloc
  dsimp only
  split
  · exact ⟨_, rfl⟩
  · rename_i hz
    obtain ⟨free, hc, hn, _⟩ := h
    obtain ⟨rest, rfl, _⟩ := hc.head_ne hz
    rw [if_neg (by simp [hn])]
    exact ⟨_, rfl⟩

/-- With a free page left, allocation returns one. -/
theorem alloc_free (h : Pool pool P held) (hf : 0 < P.freePages) :
    ∃ p P', Kalloc.alloc P = .ok (some p, P') := by
  obtain ⟨⟨o, P'⟩, hr⟩ := h.alloc_total
  cases o with
  | none =>
    have := (h.alloc_none hr).2
    omega
  | some p => exact ⟨p, P', hr⟩

/-- What freeing does to memory and list, before any ownership argument. -/
theorem free_eq (hpg : p % 4096 = 0) (hlo : allocStart ≤ p) (hhi : p + 4096 ≤ physTop) :
    Kalloc.free allocStart P p = .ok
      { mem := store64 (fill P.mem p 4096 0x5a) p P.head, head := p,
        freePages := P.freePages + 1 } := by
  unfold Kalloc.free
  rw [if_neg (by simpa using hpg), if_neg (by simpa using ⟨hlo, hhi⟩)]

theorem poison_writesIn (m : Mem) (p v : Nat) :
    WritesIn m (store64 (fill m p 4096 0x5a) p v) [p] := by
  have hs := store64_writesIn (fill m p 4096 0x5a) p 0 v (by omega)
  exact (fill_writesIn m p 0x5a).trans (by simpa using hs)

/-- Returning a held page succeeds; only that page is written. -/
theorem free (h : Pool pool P (p :: held)) :
    ∃ P', Kalloc.free allocStart P p = .ok P' ∧ Pool pool P' held ∧
      P'.freePages = P.freePages + 1 ∧ WritesIn P.mem P'.mem [p] := by
  have hp := h.mem (p := p) (by simp)
  refine ⟨_, free_eq (pool.page p hp) (pool.above p hp) (pool.below p hp), ?_, rfl,
    poison_writesIn P.mem p P.head⟩
  obtain ⟨free, hc, hn, hm⟩ := h
  have hd := hm.nodup_iff.mpr pool.nodup
  have hpos := pool.pos p hp
  have hhi := pool.below p hp
  unfold physTop dramBase at hhi
  refine ⟨p :: free, .cons p free (by omega) ?_, by simp [hn], ?_⟩
  · have hhead : P.head < 2 ^ 64 := by
      by_cases hz : P.head = 0
      · omega
      · obtain ⟨rest, rfl, _⟩ := hc.head_ne hz
        have hb := pool.below P.head (hm.mem_iff.mp (by simp))
        unfold physTop dramBase at hb
        omega
    rw [load64_store64 _ _ _ hhead]
    apply hc.congr
    intro q hq
    have hne : q ≠ p := fun he =>
      (List.nodup_append.mp hd).2.2 q hq p (by simp) he
    have hs := (poison_writesIn P.mem p P.head).same
      (by intro r hr; rw [List.mem_singleton.mp hr]; exact pool.page p hp)
      (pool.page q (hm.mem_iff.mp (List.mem_append_left _ hq))) (by simpa using hne)
    exact load64_congr (hs.mono (Nat.le_refl q) (by omega))
  · exact (List.perm_middle (a := p)).symm.trans hm

end Pool
end Osmium
