import Osmium.Proofs.Start

namespace Osmium.Vm
open Lib

variable {L : Layout} {pool : PagePool L.allocStart}

/-- The flag bits of an entry. -/
def flagsOf (pte : Nat) : Nat := pte % 1024

/-- `map_pages` changes the translations of its range and no other, and the
table stays a tree. -/
theorem mapPages_translate (hpool : Pool pool P (tabs 3 P.mem root ++ rest))
    (hva : va % pageSize = 0) (hpa : pa % pageSize = 0) (hsize : size % pageSize = 0) (hpos : 0 < size)
    (hend : va + size ≤ vaMax) (hword : pa + size ≤ 2 ^ 64) (hperm : perm ≠ 0)
    (hmask : perm &&& permMask = perm)
    (hnone : ∀ v, va ≤ v → v < va + size → translate P root v = .ok none) :
    Ends (fun e => e = .outOfPages ∧ P.freePages < 2 * (size / pageSize))
      (mapPages P root va pa size perm)
      (fun P' => Pool pool P' (tabs 3 P'.mem root ++ rest) ∧ ∀ v < vaMax,
        (va ≤ v → v < va + size → ∃ pte, translate P' root v = .ok (some (pa + (v - va), pte)) ∧
          flagsOf pte = perm ||| pteA ||| pteD ||| pteV) ∧
        (¬(va ≤ v ∧ v < va + size) → translate P' root v = translate P root v)) := by
  have hlt : perm < 256 := by
    have : perm &&& permMask < 2 ^ 8 := Nat.and_lt_two_pow _ (by decide)
    omega
  have hblank : ∀ v, va ≤ v → v < va + size → look v 2 P.mem root = none := by
    intro v hl hu
    have h := hnone v hl hu
    rw [translate_eq P root v (by omega)] at h
    exact Option.map_eq_none_iff.mp (Except.ok.inj h)
  have hends := mapPages_ends hpool (.refl _) hva hpa hsize hpos hlt (by rwa [hmask]) hword hend hblank
  refine ⟨fun hrun => ?_, fun he => ?_⟩
  · obtain ⟨new, hp', hm⟩ := hends.result hrun
    refine ⟨hp'.perm ?_, fun v hv => ⟨fun hl hu => ?_, fun hout => ?_⟩⟩
    · rw [← List.append_assoc]
      exact hm.tables.symm.append_right rest
    all_goals
      have hlook := hm.looks v hv
      rw [Nat.mul_div_cancel' (Nat.dvd_of_mod_eq_zero hsize)] at hlook
    · rw [if_pos ⟨hl, hu⟩] at hlook
      unfold pageSize at hva hpa hsize
      have hpage : (pa + (v / 4096 * 4096 - va)) % 4096 = 0 := by omega
      have hfits : pa + (v / 4096 * 4096 - va) < 2 ^ 64 := by omega
      refine ⟨_, ?_, (leaf_pte hpage hfits hlt).2.2.2⟩
      rw [translate_eq _ _ v hv, lookup_leaf hlook hpage hfits hlt, show pa + (v / 4096 * 4096 - va) + v % 4096 = pa + (v - va) by omega]
    · rw [if_neg hout] at hlook
      rw [translate_eq _ _ v hv, translate_eq _ _ v hv, lookup, lookup, hlook]
  · obtain ⟨hout, n, new, m, hn, _, hfew, hfree⟩ := hends.failure he
    refine ⟨hout, ?_⟩
    unfold pageSize at *
    omega

/-- The allocator of the one-megabyte image, just seeded. -/
theorem small_seeded : ∃ P, Kalloc.init smallImage.allocStart none (fun _ => 0) = .ok P ∧
    Pool (Kalloc.seedPool smallImage (0, 0)) P [] ∧ 1030 ≤ P.freePages := by
  have hres : Kalloc.reservedRange none = .ok (0, 0) := rfl
  obtain ⟨P, hinit, hpool, _⟩ := Kalloc.init_spec smallImage hres (fun _ => 0)
  have hcount := Pool.count hpool
  have hseeds : (Kalloc.seeds smallImage.allocStart (0, 0)).length = 29952 := smallEnv_seeds
  rw [Kalloc.seedPool_pages, hseeds, List.length_nil] at hcount
  exact ⟨P, hinit, hpool, by omega⟩

/-- A page behind the user slot's first address, in a table that maps nothing. -/
theorem mapPages_translate_first : ∃ (P P₀ P' : Phys) (root pte : Nat),
    Kalloc.init smallImage.allocStart none (fun _ => 0) = .ok P ∧ allocPage P = .ok (root, P₀) ∧
    mapPages P₀ root userText 0x1000 pageSize pteR = .ok P' ∧
    translate P' root (userText + 5) = .ok (some (0x1005, pte)) ∧
    flagsOf pte = pteR ||| pteA ||| pteD ||| pteV ∧ translate P' root 0 = translate P₀ root 0 := by
  obtain ⟨P, hinit, hpool, hfree⟩ := small_seeded
  obtain ⟨root, P₀, ha⟩ := hpool.alloc_free (by omega)
  obtain ⟨hp₀, hcount, _, hz⟩ := hpool.alloc_some ha
  have halloc : allocPage P = .ok (root, P₀) := by
    unfold allocPage
    rw [ha, ok_bind]
  have htabs : Pool (Kalloc.seedPool smallImage (0, 0)) P₀ (tabs 3 P₀.mem root ++ []) := by
    rw [tabs, tree_zero hz]
    exact hp₀
  have hends : Ends _ (mapPages P₀ root userText 0x1000 pageSize pteR) _ := mapPages_translate htabs
    (by decide) (by decide) (by decide) (by decide) (by decide) (by decide) (by decide) (by decide)
    (fun v _ hu => by
      rw [translate_eq P₀ root v (Nat.lt_trans hu (by decide)), lookup, look_zero hz]
      rfl)
  cases hrun : mapPages P₀ root userText 0x1000 pageSize pteR with
  | error e =>
    have := (hends.failure hrun).2
    unfold pageSize at this
    omega
  | ok P' =>
    obtain ⟨_, hlook⟩ := hends.result hrun
    obtain ⟨pte, ht, hf⟩ := (hlook (userText + 5) (by decide)).1 (by decide) (by decide)
    exact ⟨P, P₀, P', root, pte, hinit, halloc, hrun, ht, hf, (hlook 0 (by decide)).2 (by decide)⟩

theorem rightsOf_mem {ss : List Section} (hp : ss.Pairwise (fun s s' => s.stop ≤ s'.start ∨ s'.stop ≤ s.start))
    (hs : s ∈ ss) (hl : s.start ≤ v) (hu : v < s.stop) : rightsOf ss v = some s.perm := by
  unfold rightsOf
  induction ss with
  | nil => cases hs
  | cons s' ss ih =>
    obtain ⟨hapart, hp⟩ := List.pairwise_cons.mp hp
    rcases List.mem_cons.mp hs with rfl | hs
    · rw [List.find?_cons_of_pos (by simpa using ⟨hl, hu⟩)]
      rfl
    · have := hapart s hs
      rw [List.find?_cons_of_neg (by simp only [decide_eq_true_eq]; omega)]
      exact ih hp hs

theorem kernelSections_place (hs : s ∈ kernelSections L) :
    s.stop ≤ 0x40000000 ∨ 0x80200000 ≤ s.start := by
  have hbase := L.base
  have htext := L.text
  have huser := L.user
  have hro := L.rodata
  have hdata := L.data
  simp only [kernelSections, List.mem_cons, List.not_mem_nil, or_false] at hs
  rcases hs with rfl | rfl | rfl | rfl | rfl | rfl | rfl
  · exact .inl (by decide)
  · exact .inl (by decide)
  all_goals
    right
    dsimp only
    omega

/-- `kvmmake` identity-maps its sections with their rights, and nothing else:
neither the firmware below the image nor anything in the user slot. -/
theorem kvmmake_identity (hpool : Pool pool P held) :
    Ends (fun e => e = .outOfPages ∧ P.freePages < 1030) (kvmmake L P) (fun r =>
      (∀ v < vaMax, ∀ s ∈ kernelSections L, s.start ≤ v → v < s.stop →
        ∃ pte, translate r.2 r.1 v = .ok (some (v, pte)) ∧
          flagsOf pte = s.perm ||| pteA ||| pteD ||| pteV ∧ pte &&& pteU = 0 ∧
          (pte &&& pteW = 0 ∨ pte &&& pteX = 0)) ∧
      (∀ v < vaMax, (∀ s ∈ kernelSections L, ¬(s.start ≤ v ∧ v < s.stop)) →
        translate r.2 r.1 v = .ok none) ∧
      (∀ v, dramBase ≤ v → v < L.kernelStart → translate r.2 r.1 v = .ok none) ∧
      (∀ v < vaMax, vpn v 2 = userL2Index → translate r.2 r.1 v = .ok none)) := by
  have hcount := Pool.count hpool
  have hends := kvmmake_ends (L := L) hpool
  refine ⟨fun {r} hrun => ?_, fun he => ?_⟩
  swap
  · obtain ⟨hout, hfew⟩ := hends.failure he
    exact ⟨hout, by omega⟩
  have b := hends.result hrun
  have hbase := L.base
  have hout : ∀ v < vaMax, (∀ s ∈ kernelSections L, ¬(s.start ≤ v ∧ v < s.stop)) →
      translate r.2 r.1 v = .ok none := by
    intro v hv hn
    rw [translate_eq _ _ v hv, lookup, b.looks v hv, rightsOf_none hn]
    rfl
  refine ⟨fun v hv s hs hl hu => ?_, hout, fun v hl hu => ?_, fun v hv hslot => ?_⟩
  · have hlook := b.looks v hv
    have hrights := rightsOf_mem (kernelSections_apart L) hs hl hu
    obtain ⟨hperm, hU, hWX⟩ := kernelRights hrights
    rw [hrights] at hlook
    have hpage : v / 4096 * 4096 % 4096 = 0 := Nat.mul_mod_left _ _
    have hfits : v / 4096 * 4096 < 2 ^ 64 :=
      Nat.lt_of_le_of_lt (Nat.div_mul_le_self v 4096) (Nat.lt_trans hv (by decide))
    refine ⟨_, ?_, (leaf_pte hpage hfits hperm).2.2.2, ?_, ?_⟩
    · rw [translate_eq _ _ v hv, lookup_leaf hlook hpage hfits hperm,
        show v / 4096 * 4096 + v % 4096 = v from Nat.div_add_mod' v 4096]
    · rw [leaf_flag hpage hfits hperm (by decide) (by decide)]
      exact hU
    · rw [leaf_flag hpage hfits hperm (by decide) (by decide),
        leaf_flag hpage hfits hperm (by decide) (by decide)]
      exact hWX
  · rw [Layout.kernelStart, hbase] at hu
    refine hout v (Nat.lt_trans hu (by decide)) fun s hs hin => ?_
    have := kernelSections_place hs
    unfold dramBase at hl
    omega
  · refine hout v hv fun s hs hin => ?_
    have := kernelSections_place hs
    have hv' : v < 0x4000000000 := hv
    rw [vpn_two, show userL2Index = 1 from rfl] at hslot
    omega

theorem kvmmake_identity_small : ∃ (P P' : Phys) (root pte : Nat),
    Kalloc.init smallImage.allocStart none (fun _ => 0) = .ok P ∧ kvmmake smallImage P = .ok (root, P') ∧
    translate P' root 0x80200004 = .ok (some (0x80200004, pte)) ∧
    flagsOf pte = pteR ||| pteX ||| pteA ||| pteD ||| pteV ∧
    translate P' root userText = .ok none := by
  obtain ⟨P, hinit, hpool, hfree⟩ := small_seeded
  have hends := kvmmake_identity hpool
  cases hrun : kvmmake smallImage P with
  | error e =>
    have := (hends.failure hrun).2
    omega
  | ok r =>
    obtain ⟨hin, _, _, hslot⟩ := hends.result hrun
    obtain ⟨pte, ht, hf, _⟩ := hin 0x80200004 (by decide) ⟨0x80200000, 0x80220000, pteR ||| pteX⟩
      (by simp [kernelSections, smallImage]) (by decide) (by decide)
    exact ⟨P, r.2, r.1, pte, hinit, hrun, ht, hf, hslot userText (by decide) rfl⟩

end Osmium.Vm
