import Osmium.Lib.Bytes
import Mathlib.Data.List.Basic
import Mathlib.Data.List.Chain
import Mathlib.Data.List.Pairwise

namespace Osmium.Lib

/-- A piece of a region, with a mark that says what it is used for. -/
structure Tile (κ : Type) where
  start : Nat
  size : Nat
  kind : κ

variable {κ : Type}

def Tile.stop (t : Tile κ) : Nat := t.start + t.size

/-- The tiles follow each other without gap from `a` to `z`. -/
def Tiles : Nat → Nat → List (Tile κ) → Prop
  | a, z, [] => a = z
  | a, z, t :: ts => t.start = a ∧ Tiles t.stop z ts

theorem tiles_append {xs ys : List (Tile κ)} :
    Tiles a z (xs ++ ys) ↔ ∃ b, Tiles a b xs ∧ Tiles b z ys := by
  induction xs generalizing a with
  | nil => simp [Tiles]
  | cons t ts ih =>
    simp only [List.cons_append, Tiles, ih]
    constructor
    · rintro ⟨h, b, hx, hy⟩
      exact ⟨b, ⟨h, hx⟩, hy⟩
    · rintro ⟨b, ⟨h, hx⟩, hy⟩
      exact ⟨h, b, hx, hy⟩

theorem Tiles.le {ts : List (Tile κ)} (h : Tiles a z ts) : a ≤ z := by
  induction ts generalizing a with
  | nil => exact Nat.le_of_eq h
  | cons t ts ih =>
    obtain ⟨hs, ht⟩ := h
    have := ih ht
    unfold Tile.stop at this
    omega

theorem Tiles.bounds {ts : List (Tile κ)} (h : Tiles a z ts) (ht : t ∈ ts) :
    a ≤ t.start ∧ t.stop ≤ z := by
  obtain ⟨xs, ys, rfl⟩ := List.append_of_mem ht
  obtain ⟨b, hx, hs, hy⟩ := tiles_append.mp h
  have h1 := hx.le
  have h2 := hy.le
  omega

/-- Earlier tiles end before later ones begin. -/
theorem Tiles.ordered {ts : List (Tile κ)} (h : Tiles a z ts) :
    ts.Pairwise (fun s t => s.stop ≤ t.start) := by
  induction ts generalizing a with
  | nil => exact List.Pairwise.nil
  | cons t ts ih =>
    obtain ⟨_, ht⟩ := h
    exact List.Pairwise.cons (fun u hu => (ht.bounds hu).1) (ih ht)

theorem Tiles.apart {ts : List (Tile κ)} (h : Tiles a z ts) (hs : s ∈ ts) (ht : t ∈ ts)
    (hne : s ≠ t) : s.stop ≤ t.start ∨ t.stop ≤ s.start := by
  have : Std.Symm (fun s t : Tile κ => s.stop ≤ t.start ∨ t.stop ≤ s.start) :=
    ⟨fun _ _ => Or.symm⟩
  exact List.Pairwise.forall (R := fun s t : Tile κ => s.stop ≤ t.start ∨ t.stop ≤ s.start)
    (h.ordered.imp Or.inl) hs ht hne

/-- Every address of the region lies in a tile. -/
theorem Tiles.cover {ts : List (Tile κ)} (h : Tiles a z ts) (hl : a ≤ x) (hu : x < z) :
    ∃ t ∈ ts, t.start ≤ x ∧ x < t.stop := by
  induction ts generalizing a with
  | nil =>
    have : a = z := h
    omega
  | cons t ts ih =>
    obtain ⟨hs, ht⟩ := h
    by_cases hx : x < t.stop
    · exact ⟨t, by simp, by omega, hx⟩
    · obtain ⟨u, hu', hr⟩ := ih ht (by omega)
      exact ⟨u, by simp [hu'], hr⟩

/-- A list of blocks linked through memory: each block starts with its size and
the address of the next one. -/
def Seg (m : Mem) : Nat → List (Tile κ) → Nat → Prop
  | a, [], z => a = z
  | a, t :: ts, z => a = t.start ∧ load64 m t.start = t.size ∧ Seg m (load64 m (t.start + 8)) ts z

theorem seg_append {m : Mem} {xs ys : List (Tile κ)} :
    Seg m a (xs ++ ys) z ↔ ∃ b, Seg m a xs b ∧ Seg m b ys z := by
  induction xs generalizing a with
  | nil => simp [Seg]
  | cons t ts ih =>
    simp only [List.cons_append, Seg, ih]
    constructor
    · rintro ⟨h, hn, b, hx, hy⟩
      exact ⟨b, ⟨h, hn, hx⟩, hy⟩
    · rintro ⟨b, ⟨h, hn, hx⟩, hy⟩
      exact ⟨h, hn, b, hx, hy⟩

/-- Only the first two words of the blocks matter. -/
theorem Seg.congr {m m' : Mem} {ts : List (Tile κ)} (h : Seg m a ts z)
    (hs : ∀ t ∈ ts, SameOn m m' t.start 16) : Seg m' a ts z := by
  induction ts generalizing a with
  | nil => exact h
  | cons t ts ih =>
    obtain ⟨ha, hn, ht⟩ := h
    have hw := hs t (by simp)
    refine ⟨ha, ?_, ?_⟩
    · rw [load64_congr (hw.mono (Nat.le_refl _) (by omega))]
      exact hn
    · rw [load64_congr (hw.mono (by omega) (by omega))]
      exact ih ht (fun u hu => hs u (by simp [hu]))

/-- The block a predecessor pointer names: the last one, or none. -/
def lastStart (ts : List (Tile κ)) : Nat := (ts.getLast?.map Tile.start).getD 0

theorem lastStart_nil : lastStart ([] : List (Tile κ)) = 0 := rfl

theorem lastStart_concat (ts : List (Tile κ)) (t : Tile κ) : lastStart (ts ++ [t]) = t.start := by
  simp [lastStart]

/-- Redirect the end of a segment: through the last block's link, or through the
head when the segment is empty. -/
theorem Seg.relink {m : Mem} {ts : List (Tile κ)} (h : Seg m a ts z) (hb : y < 2 ^ 64)
    (hd : ts.Pairwise (fun s t => s.start + 16 ≤ t.start)) (hne : ts ≠ []) :
    Seg (store64 m (lastStart ts + 8) y) a ts y := by
  obtain ⟨us, t, rfl⟩ : ∃ us t, ts = us ++ [t] :=
    ⟨ts.dropLast, ts.getLast hne, (List.dropLast_append_getLast hne).symm⟩
  rw [lastStart_concat]
  obtain ⟨b, hx, hs, hn, _⟩ := seg_append.mp h
  have hbefore := (List.pairwise_append.mp hd).2.2
  refine seg_append.mpr ⟨b, hx.congr ?_, hs, ?_, ?_⟩
  · intro u hu
    have := hbefore u hu t (by simp)
    exact store64_off _ _ _ _ _ (by unfold Apart; omega)
  · rw [load64_store64_off _ _ _ _ (by unfold Apart; omega)]
    exact hn
  · rw [load64_store64 _ _ _ hb]
    rfl

end Osmium.Lib
