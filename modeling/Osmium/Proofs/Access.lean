import Osmium.Sv39
import Osmium.Proofs.UserSpace

namespace Osmium.Sv39
open Lib Vm

/-- The hardware walks on through a pointer. -/
theorem pointer_walks (h : Pointer e) : isLeaf e = false ∧ reserved e = false := by
  obtain ⟨hm, hb⟩ := h
  have hf : ∀ f < 1024, e &&& f = 1 &&& f := by
    intro f hf
    rw [flag_mod e hf, hm]
  refine ⟨?_, ?_⟩
  · unfold isLeaf
    rw [hf _ (by decide)]
    rfl
  · have hw : e &&& pteW = 0 := hf pteW (by decide)
    exact decide_eq_false (not_or.mpr ⟨fun h => h.2 hw, Nat.not_le.mpr hb⟩)

theorem walk_zero (m : Mem) (va t : Nat) : walk m va 0 t =
    if ¬Valid (entry m t (vpn va 0)) ∨ reserved (entry m t (vpn va 0)) then none
    else if isLeaf (entry m t (vpn va 0)) then some (entry m t (vpn va 0), 0)
    else none := by
  rw [walk]
  rfl

theorem walk_succ (m : Mem) (va l t : Nat) : walk m va (l + 1) t =
    if ¬Valid (entry m t (vpn va (l + 1))) ∨ reserved (entry m t (vpn va (l + 1))) then none
    else if isLeaf (entry m t (vpn va (l + 1))) then some (entry m t (vpn va (l + 1)), l + 1)
    else walk m va l (pteToPa (entry m t (vpn va (l + 1)))) := by
  rw [walk]
  rfl

/-- Where tables are plain pointers the hardware finds what the software finds. -/
theorem walk_look (hd : Dirs l m t) (h : walk m va l t = some (e, level)) :
    level = 0 ∧ look va l m t = some e := by
  induction l generalizing t with
  | zero =>
    rw [walk_zero] at h
    split at h
    · cases h
    · rename_i hv
      split at h
      · obtain ⟨rfl, rfl⟩ := Prod.mk.inj (Option.some.inj h)
        exact ⟨rfl, if_pos (not_not.mp (not_or.mp hv).1)⟩
      · cases h
  | succ l ih =>
    rw [walk_succ] at h
    split at h
    · cases h
    · rename_i hv
      have hc := child_valid (not_not.mp (not_or.mp hv).1)
      obtain ⟨hp, hd'⟩ := hd _ (vpn_lt va (l + 1)) _ hc
      rw [(pointer_walks hp).1] at h
      obtain ⟨h1, h2⟩ := ih hd' h
      exact ⟨h1, by rw [look_succ, hc]; exact h2⟩

theorem look_walk (hd : Dirs l m t) (h : look va l m t = some e) (hr : reserved e = false)
    (hl : isLeaf e = true) : walk m va l t = some (e, 0) := by
  induction l generalizing t with
  | zero =>
    unfold look at h
    split at h
    · rename_i hv
      obtain rfl := Option.some.inj h
      rw [walk_zero, if_neg (by simp [hv, hr]), if_pos hl]
    · cases h
  | succ l ih =>
    rw [look_succ] at h
    obtain ⟨c, hc, h⟩ := Option.bind_eq_some_iff.mp h
    obtain ⟨hp, hd'⟩ := hd _ (vpn_lt va (l + 1)) _ hc
    obtain ⟨hv, he⟩ := child_some hc
    rw [walk_succ, if_neg (by simp [hv, (pointer_walks hp).2]), (pointer_walks hp).1, he]
    exact ih hd' h

/-- The bit an access asks for. -/
def Access.bit : Access → Nat
  | .fetch => pteX
  | .load => pteR
  | .store => pteW

/-- An access from U-mode goes through a leaf that carries `U` and the bit it
asks for. -/
theorem access_user (hd : Dirs 2 m t) (h : access m t va acc .user sum = some pa) :
    ∃ e, look va 2 m t = some e ∧ e &&& pteU ≠ 0 ∧ e &&& acc.bit ≠ 0 ∧
      pa = pteToPa e + va % 4096 := by
  unfold access at h
  split at h
  · split at h
    · cases h
    · rename_i e level hw
      obtain ⟨rfl, hl⟩ := walk_look hd hw
      dsimp only at h
      split at h
      · rename_i hp
        refine ⟨e, hl, ?_, ?_, (Option.some.inj h).symm⟩
        · have := hp.1
          unfold permits at this
          simp only [Bool.and_eq_true, decide_eq_true_eq] at this
          exact this.1.1
        · have := hp.1
          cases acc <;> simp only [permits, Bool.and_eq_true, decide_eq_true_eq] at this
          · exact this.1.2
          · exact this.1.2
          · exact this.1.2.1
      · cases h
  · cases h

/-- A leaf as `map_pages` writes it. -/
structure Leaf (e frame perm : Nat) : Prop where
  pte : e = paToPte frame ||| leafFlags perm
  aligned : frame % 4096 = 0
  bound : frame < 2 ^ 32

namespace Leaf

theorem word (h : Leaf e f perm) : f < 2 ^ 64 := Nat.lt_trans h.bound (by decide)

theorem frame_eq (h : Leaf e f perm) (hp : perm < 256) : pteToPa e = f := by
  rw [h.pte]
  exact (leaf_pte h.aligned h.word hp).2.1

theorem flag (h : Leaf e f perm) (hp : perm < 256) (hb : bit &&& (pteA ||| pteD ||| pteV) = 0)
    (hlt : bit < 1024) : e &&& bit = perm &&& bit := by
  rw [h.pte]
  exact leaf_flag h.aligned h.word hp hb hlt

/-- The bits `map_pages` presets. -/
theorem preset (h : Leaf e f perm) (hp : perm < 256) : e &&& pteA ≠ 0 ∧ e &&& pteD ≠ 0 := by
  have hl := (leaf_pte h.aligned h.word hp).2.2.2
  rw [← h.pte] at hl
  constructor
  · rw [flag_mod e (by decide : pteA < 1024), hl]
    unfold leafFlags
    rw [Nat.and_or_distrib_right, Nat.and_or_distrib_right, Nat.and_or_distrib_right]
    intro hz
    simp [Nat.or_eq_zero_iff] at hz
  · rw [flag_mod e (by decide : pteD < 1024), hl]
    unfold leafFlags
    rw [Nat.and_or_distrib_right, Nat.and_or_distrib_right, Nat.and_or_distrib_right]
    intro hz
    simp [Nat.or_eq_zero_iff] at hz

theorem lt (h : Leaf e f perm) (hp : perm < 256) : e < 2 ^ 54 := by
  have hl := leafFlags_lt hp
  have hb := h.bound
  rw [h.pte, paToPte_or f (by omega)]
  omega

end Leaf

/-- A readable leaf serves what its bits allow, in U-mode and, with `SUM`, for
the kernel's copies. -/
theorem access_leaf (hd : Dirs 2 m t) (h : look va 2 m t = some e) (hl : Leaf e f perm)
    (hp : perm < 256) (hr : perm &&& pteR ≠ 0) (hu : perm &&& pteU ≠ 0)
    (hb : perm &&& Access.bit acc ≠ 0) (hm : mode = .user ∨ sum = true ∧ acc ≠ .fetch)
    (hva : va < vaMax) : access m t va acc mode sum = some (f + va % 4096) := by
  have hflag : ∀ bit, bit &&& (pteA ||| pteD ||| pteV) = 0 → bit < 1024 → perm &&& bit ≠ 0 →
      e &&& bit ≠ 0 := by
    intro bit h1 h2 h3
    rw [hl.flag hp h1 h2]
    exact h3
  have hR := hflag pteR (by decide) (by decide) hr
  have hU := hflag pteU (by decide) (by decide) hu
  obtain ⟨hA, hD⟩ := hl.preset hp
  have hres : reserved e = false :=
    decide_eq_false (not_or.mpr ⟨fun h => hR h.1, Nat.not_le.mpr (hl.lt hp)⟩)
  have hleaf : isLeaf e = true := by
    unfold isLeaf
    rw [Nat.and_or_distrib_left]
    simp [Nat.or_eq_zero_iff, hR]
  have hperm : permits e acc mode sum = true := by
    have hB : e &&& Access.bit acc ≠ 0 := by
      cases acc <;> exact hflag _ (by decide) (by decide) hb
    unfold permits
    rcases hm with rfl | ⟨rfl, hm⟩
    · cases acc <;> simp only [Access.bit] at hB <;> simp [hU, hA, hD, hB]
    · cases mode <;> cases acc <;> simp only [Access.bit] at hB <;>
        first | exact absurd rfl hm | simp [hU, hA, hD, hB]
  have hcan : canonical va = true := by
    unfold canonical
    unfold vaMax at hva
    simp only [decide_eq_true_eq]
    exact .inl hva
  unfold access
  rw [if_pos hcan, look_walk hd h hres hleaf]
  have ha := hl.aligned
  rw [← hl.frame_eq hp] at ha ⊢
  exact if_pos ⟨hperm, ha⟩

end Osmium.Sv39
