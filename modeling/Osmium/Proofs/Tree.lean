import Osmium.Lib.Lists
import Osmium.Proofs.Pool
import Osmium.Proofs.Pte

namespace Osmium.Vm
open Lib

def entry (m : Mem) (t i : Nat) : Nat := load64 m (t + 8 * i)

/-- The page a valid entry points at: a lower table, or a frame. -/
def child (m : Mem) (t i : Nat) : Option Nat :=
  if Valid (entry m t i) then some (pteToPa (entry m t i)) else none

/-- The pages of a table of the given depth in preorder. `leaf` says what a
mapped frame contributes: itself where frames are owned, nothing where only the
tables are. -/
def tree (leaf : Nat → List Nat) : Nat → Mem → Nat → List Nat
  | 0, _, t => leaf t
  | d + 1, m, t => t :: (List.range 512).flatMap (fun i => (child m t i).elim [] (tree leaf d m))

/-- The part of a tree behind one entry of its root. -/
def under (leaf : Nat → List Nat) (d : Nat) (m : Mem) (t i : Nat) : List Nat :=
  (child m t i).elim [] (tree leaf d m)

/-- Tables only. -/
abbrev tabs (d : Nat) (m : Mem) (t : Nat) : List Nat := tree (fun _ => []) d m t

/-- The valid leaf entry for `va` in a table of the given level. -/
def look (va : Nat) : Nat → Mem → Nat → Option Nat
  | 0, m, t => if Valid (entry m t (vpn va 0)) then some (entry m t (vpn va 0)) else none
  | l + 1, m, t => (child m t (vpn va (l + 1))).bind (look va l m)

/-- The address of the level-0 entry for `va`, when its tables exist. -/
def slot (va : Nat) : Nat → Mem → Nat → Option Nat
  | 0, _, t => some (t + 8 * vpn va 0)
  | l + 1, m, t => (child m t (vpn va (l + 1))).bind (slot va l m)

/-- The number of tables a walk to `va` does not find. -/
def missing (va : Nat) : Nat → Mem → Nat → Nat
  | 0, _, _ => 0
  | l + 1, m, t => (child m t (vpn va (l + 1))).elim (l + 1) (missing va l m)

/-- The level below which two addresses have no table in common. -/
def split (va va' : Nat) : Nat → Nat
  | 0 => 0
  | l + 1 => if vpn va' (l + 1) = vpn va (l + 1) then split va va' l else l + 1

/-- Entries above the leaf level are pointers: no permission bit is set. -/
def Dirs : Nat → Mem → Nat → Prop
  | 0, _, _ => True
  | l + 1, m, t => ∀ i < 512, ∀ c, child m t i = some c → Pointer (entry m t i) ∧ Dirs l m c

theorem tree_succ (leaf : Nat → List Nat) (d : Nat) (m : Mem) (t : Nat) :
    tree leaf (d + 1) m t = t :: (List.range 512).flatMap (under leaf d m t) := rfl

theorem look_succ (va l : Nat) (m : Mem) (t : Nat) :
    look va (l + 1) m t = (child m t (vpn va (l + 1))).bind (look va l m) := rfl

theorem missing_succ (va l : Nat) (m : Mem) (t : Nat) :
    missing va (l + 1) m t = (child m t (vpn va (l + 1))).elim (l + 1) (missing va l m) := rfl

theorem under_some (hc : child m t i = some c) : under leaf d m t i = tree leaf d m c := by
  simp [under, hc]

theorem under_none (hc : child m t i = none) : under leaf d m t i = [] := by
  simp [under, hc]

theorem child_valid (hv : Valid (entry m t i)) : child m t i = some (pteToPa (entry m t i)) :=
  if_pos hv

theorem child_invalid (hv : ¬Valid (entry m t i)) : child m t i = none := if_neg hv

theorem child_some (hc : child m t i = some c) :
    Valid (entry m t i) ∧ pteToPa (entry m t i) = c := by
  unfold child at hc
  split at hc
  · rename_i hv
    exact ⟨hv, Option.some.inj hc⟩
  · cases hc

theorem root_mem (leaf : Nat → List Nat) (d : Nat) (m : Mem) (t : Nat) :
    t ∈ tree leaf (d + 1) m t := by simp [tree]

/-- A table below a valid entry belongs to the tree. -/
theorem under_mem (hi : i < 512) (hc : child m t i = some c) (hq : q ∈ tree leaf d m c) :
    q ∈ tree leaf (d + 1) m t := by
  rw [tree_succ]
  refine List.mem_cons_of_mem _ (List.mem_flatMap.mpr ⟨i, List.mem_range.mpr hi, ?_⟩)
  rwa [under_some hc]

/-- What lies behind the other entries of a root. -/
def beside (leaf : Nat → List Nat) (d : Nat) (m : Mem) (t i : Nat) : List Nat :=
  ((List.range 512).erase i).flatMap (under leaf d m t)

/-- A tree split at one entry of its root. -/
theorem tree_pull (leaf : Nat → List Nat) (d : Nat) (m : Mem) (t : Nat) (hi : i < 512) :
    (tree leaf (d + 1) m t).Perm (t :: under leaf d m t i ++ beside leaf d m t i) := by
  rw [tree_succ, List.cons_append]
  exact (flatMap_range_pull _ hi).cons t

theorem beside_mem (hj : j < 512) (hne : j ≠ i) (hc : child m t j = some c)
    (hq : q ∈ tree leaf d m c) : q ∈ beside leaf d m t i :=
  List.mem_flatMap.mpr ⟨j, mem_range_erase.mpr ⟨hne, hj⟩, by rw [under_some hc]; exact hq⟩

theorem tabs_mem_tree (leaf : Nat → List Nat) (h : q ∈ tabs d m t) : q ∈ tree leaf d m t := by
  induction d generalizing t with
  | zero => simp [tree] at h
  | succ d ih =>
    rw [tabs, tree_succ] at h
    rcases List.mem_cons.mp h with rfl | h
    · exact root_mem ..
    · obtain ⟨i, hi, hq⟩ := List.mem_flatMap.mp h
      cases hc : child m t i with
      | none => simp [under_none hc] at hq
      | some c =>
        rw [under_some hc] at hq
        exact under_mem (List.mem_range.mp hi) hc (ih hq)

theorem entry_congr {m m' : Mem} (h : SameOn m m' t 4096) (hi : i < 512) :
    entry m' t i = entry m t i := load64_congr (h.mono (by omega) (by omega))

theorem child_congr {m m' : Mem} (he : entry m' t i = entry m t i) :
    child m' t i = child m t i := by
  unfold child
  rw [he]

/-- A tree is determined by the contents of its tables. -/
theorem tree_congr {m m' : Mem} (h : ∀ q ∈ tabs d m t, SameOn m m' q 4096) :
    tree leaf d m' t = tree leaf d m t := by
  induction d generalizing t with
  | zero => rfl
  | succ d ih =>
    rw [tree_succ, tree_succ]
    refine congrArg (List.cons t) (List.flatMap_congr ?_)
    intro i hi
    have hi := List.mem_range.mp hi
    have hce := child_congr (entry_congr (h t (root_mem ..)) hi)
    cases hc : child m t i with
    | none => rw [under_none hc, under_none (hce.trans hc)]
    | some c =>
      rw [under_some hc, under_some (hce.trans hc)]
      exact ih (fun q hq => h q (under_mem hi hc hq))

theorem look_congr {m m' : Mem} (h : ∀ q ∈ tabs (l + 1) m t, SameOn m m' q 4096) :
    look va l m' t = look va l m t := by
  induction l generalizing t with
  | zero => simp only [look, entry_congr (h t (root_mem ..)) (vpn_lt va 0)]
  | succ l ih =>
    have hce := child_congr (entry_congr (h t (root_mem ..)) (vpn_lt va (l + 1)))
    simp only [look, hce]
    cases hc : child m t (vpn va (l + 1)) with
    | none => rfl
    | some c => exact ih (fun q hq => h q (under_mem (vpn_lt ..) hc hq))

theorem missing_congr {m m' : Mem} (h : ∀ q ∈ tabs (l + 1) m t, SameOn m m' q 4096) :
    missing va l m' t = missing va l m t := by
  induction l generalizing t with
  | zero => rfl
  | succ l ih =>
    have hce := child_congr (entry_congr (h t (root_mem ..)) (vpn_lt va (l + 1)))
    simp only [missing, hce]
    cases hc : child m t (vpn va (l + 1)) with
    | none => rfl
    | some c => exact ih (fun q hq => h q (under_mem (vpn_lt ..) hc hq))

theorem missing_le (va l : Nat) (m : Mem) (t : Nat) : missing va l m t ≤ l := by
  induction l generalizing t with
  | zero => exact Nat.le_refl 0
  | succ l ih =>
    simp only [missing]
    cases hc : child m t (vpn va (l + 1)) with
    | none => exact Nat.le_refl _
    | some c => exact Nat.le_succ_of_le (ih c)

theorem split_le (va va' l : Nat) : split va va' l ≤ l := by
  induction l with
  | zero => exact Nat.le_refl 0
  | succ l ih =>
    unfold split
    split
    · exact Nat.le_succ_of_le ih
    · exact Nat.le_refl _

theorem slot_congr {m m' : Mem} (h : ∀ q ∈ tabs (l + 1) m t, SameOn m m' q 4096) :
    slot va l m' t = slot va l m t := by
  induction l generalizing t with
  | zero => rfl
  | succ l ih =>
    have hce := child_congr (entry_congr (h t (root_mem ..)) (vpn_lt va (l + 1)))
    simp only [slot, hce]
    cases hc : child m t (vpn va (l + 1)) with
    | none => rfl
    | some c => exact ih (fun q hq => h q (under_mem (vpn_lt ..) hc hq))

theorem Dirs.congr {m m' : Mem} (hd : Dirs l m t)
    (h : ∀ q ∈ tabs (l + 1) m t, SameOn m m' q 4096) : Dirs l m' t := by
  induction l generalizing t with
  | zero => trivial
  | succ l ih =>
    intro i hi c hc
    have he := entry_congr (h t (root_mem ..)) hi
    rw [child_congr he] at hc
    obtain ⟨hf, hdc⟩ := hd i hi c hc
    refine ⟨?_, ih hdc (fun q hq => h q (under_mem hi hc hq))⟩
    rw [he]
    exact hf

/-- A cleared page is a table without entries. -/
theorem child_zero {m : Mem} (hz : ∀ x, t ≤ x → x < t + 4096 → m x = 0) (hi : i < 512) :
    entry m t i = 0 ∧ child m t i = none := by
  have he : entry m t i = 0 := load_zero (fun x hl hu => hz x (by omega) (by omega))
  refine ⟨he, child_invalid ?_⟩
  rw [he, valid_iff]
  omega

theorem tree_zero {m : Mem} (hz : ∀ x, t ≤ x → x < t + 4096 → m x = 0) :
    tree leaf (d + 1) m t = [t] := by
  rw [tree_succ]
  have hn : (List.range 512).flatMap (under leaf d m t) = [] := by
    apply List.flatMap_eq_nil_iff.mpr
    intro i hi
    exact under_none (child_zero hz (List.mem_range.mp hi)).2
  rw [hn]

theorem look_zero {m : Mem} (hz : ∀ x, t ≤ x → x < t + 4096 → m x = 0) :
    look va l m t = none := by
  cases l with
  | zero =>
    have he := (child_zero hz (vpn_lt va 0)).1
    simp [look, he, valid_iff]
  | succ l => simp [look, (child_zero hz (vpn_lt va (l + 1))).2]

theorem missing_zero {m : Mem} (hz : ∀ x, t ≤ x → x < t + 4096 → m x = 0) :
    missing va l m t = l := by
  cases l with
  | zero => rfl
  | succ l => simp [missing, (child_zero hz (vpn_lt va (l + 1))).2]

theorem dirs_zero {m : Mem} (hz : ∀ x, t ≤ x → x < t + 4096 → m x = 0) : Dirs l m t := by
  cases l with
  | zero => trivial
  | succ l =>
    intro i hi c hc
    rw [(child_zero hz hi).2] at hc
    cases hc

theorem look_slot (va : Nat) (l : Nat) (m : Mem) (t : Nat) :
    look va l m t = (slot va l m t).bind
      (fun a => if Valid (load64 m a) then some (load64 m a) else none) := by
  induction l generalizing t with
  | zero => rfl
  | succ l ih =>
    simp only [look, slot]
    cases child m t (vpn va (l + 1)) with
    | none => rfl
    | some c => exact ih c

/-- Without allocation the walk only reads. -/
theorem walkFrom_read (va l : Nat) (P : Phys) (t : Nat) :
    walkFrom va false l P t = .ok (slot va l P.mem t, P) := by
  induction l generalizing t with
  | zero => rfl
  | succ l ih =>
    simp only [walkFrom, slot]
    by_cases hv : Valid (load64 P.mem (t + 8 * vpn va (l + 1)))
    · rw [if_pos hv, child_valid (show Valid (entry P.mem t (vpn va (l + 1))) from hv), ih]
      rfl
    · rw [if_neg hv, child_invalid (show ¬Valid (entry P.mem t (vpn va (l + 1))) from hv)]
      rfl

/-- The translation a table gives, as a pure function of memory. -/
def lookup (m : Mem) (root va : Nat) : Option (Nat × Nat) :=
  (look va 2 m root).map (fun pte => (pteToPa pte ||| (va % pageSize), pte))

theorem translate_eq (P : Phys) (root va : Nat) (hv : va < vaMax) :
    translate P root va = .ok (lookup P.mem root va) := by
  unfold translate walk lookup
  rw [if_pos hv, walkFrom_read, look_slot]
  cases slot va 2 P.mem root with
  | none => rfl
  | some a => by_cases hp : Valid (load64 P.mem a) <;> simp [hp]

/-- The translation that a leaf of `map_pages` gives. -/
theorem lookup_leaf (hl : look v 2 m root = some (paToPte p ||| leafFlags perm))
    (hp : p % 4096 = 0) (hb : p < 2 ^ 64) (hperm : perm < 256) :
    lookup m root v = some (p + v % 4096, paToPte p ||| leafFlags perm) := by
  obtain ⟨_, hpa, _, _⟩ := leaf_pte hp hb hperm
  unfold lookup
  rw [hl, Option.map_some, hpa]
  have hor : p ||| v % pageSize = p + v % 4096 := by
    rw [← Nat.div_add_mod p 4096, hp, Nat.add_zero]
    exact (Nat.two_pow_add_eq_or_of_lt (show v % 4096 < 2 ^ 12 from Nat.mod_lt v (by decide)) _).symm
  rw [hor]

end Osmium.Vm
