import Osmium.Proofs.Map

namespace Osmium.Vm
open Lib

variable {L : Layout} {pool : PagePool L.allocStart}

/-- What every process relies on in the table it shares with the kernel: tables
below it are plain pointers, the user slot is empty, no leaf is a user page. -/
structure KernelMap (m : Mem) (kroot : Nat) : Prop where
  dirs : Dirs 2 m kroot
  slot : child m kroot userL2Index = none
  noUser : ∀ v e, look v 2 m kroot = some e → e &&& pteU = 0

theorem KernelMap.congr {m m' : Mem} (h : KernelMap m kroot)
    (hs : ∀ q ∈ tabs 3 m kroot, SameOn m m' q 4096) : KernelMap m' kroot where
  dirs := h.dirs.congr hs
  slot := (child_congr (entry_congr (hs kroot (root_mem ..)) (by decide))).trans h.slot
  noUser v e he := h.noUser v e ((look_congr hs).symm.trans he)

theorem allocPage_some (h : allocPage P = .ok (p, P')) : Kalloc.alloc P = .ok (some p, P') := by
  unfold allocPage at h
  rw [bind_ok] at h
  obtain ⟨⟨o, Q⟩, ha, hr⟩ := h
  cases o with
  | none => cases hr
  | some q =>
    simp only [Except.ok.injEq, Prod.mk.injEq] at hr
    obtain ⟨rfl, rfl⟩ := hr
    exact ha

theorem tabs_one_length (m : Mem) (t : Nat) : (tabs 1 m t).length = 1 := by
  rw [tabs, tree_succ]
  have hnil : (List.range 512).flatMap (under (fun _ => []) 0 m t) = [] := by
    refine List.flatMap_eq_nil_iff.mpr fun i _ => ?_
    unfold under
    cases child m t i <;> rfl
  rw [hnil]
  rfl

theorem under_length (b : Nat) (h : ∀ c, (tabs d m c).length ≤ b) (t i : Nat) :
    (under (fun _ => []) d m t i).length ≤ b := by
  unfold under
  cases child m t i with
  | none => exact Nat.zero_le _
  | some c => exact h c

theorem tabs_two_length (m : Mem) (t : Nat) : (tabs 2 m t).length ≤ 513 := by
  rw [tabs, tree_succ, List.length_cons]
  have hle := length_flatMap_le (b := 1) (fun _ => true) (List.range 512)
    (under (fun _ => []) 1 m t) fun i _ => under_length 1 (fun c => Nat.le_of_eq (tabs_one_length m c)) t i
  rw [List.filter_true, List.length_range] at hle
  exact Nat.succ_le_succ hle

/-- The kernel maps devices in the first gigabyte and memory in the third. -/
def Sparse (m : Mem) (t : Nat) : Prop := ∀ i < 512, i ≠ 0 → i ≠ 2 → child m t i = none

/-- Two gigabytes need few tables, however much of them is mapped. -/
theorem Sparse.tabs_length (h : Sparse m t) : (tabs 3 m t).length ≤ 1027 := by
  rw [tabs, tree_succ, List.length_cons]
  have hle := length_flatMap_le (b := 513) (fun i => decide (i = 0 ∨ i = 2)) (List.range 512)
    (under (fun _ => []) 2 m t) fun i hi => ?_
  · have htwo : ((List.range 512).filter (fun i => decide (i = 0 ∨ i = 2))).length = 2 := by
      decide +kernel
    rw [htwo] at hle
    exact Nat.succ_le_succ hle
  · split
    · exact under_length 513 (tabs_two_length m) t i
    next hn =>
      simp only [decide_eq_true_eq, not_or] at hn
      rw [under_none (h i (List.mem_range.mp hi) hn.1 hn.2)]
      exact Nat.le_refl _

theorem Pool.count (h : Pool pool P held) : P.freePages + held.length = pool.pages.length := by
  obtain ⟨free, _, hn, hm⟩ := h
  rw [hn, ← List.length_append, hm.length_eq]

/-- The leaf of the kernel's table for `v`, given the rights meant for it. -/
def identityLeaf (v : Nat) (rights : Option Nat) : Option Nat :=
  rights.map (fun perm => paToPte (v / 4096 * 4096) ||| leafFlags perm)

/-- The kernel's table under construction: it identity-maps exactly what `rights`
says. -/
structure Building {L : Layout} (pool : PagePool L.allocStart) (held : List Nat) (P : Phys) (t : Nat)
    (rights : Nat → Option Nat) : Prop where
  pool : Pool pool P (tabs 3 P.mem t ++ held)
  sparse : Sparse P.mem t
  dirs : Dirs 2 P.mem t
  looks : ∀ v < vaMax, look v 2 P.mem t = identityLeaf v (rights v)

namespace Building

variable {held : List Nat} {rights : Nat → Option Nat}

theorem congr (h : Building pool held P t rights) (hr : ∀ v, rights' v = rights v) :
    Building pool held P t rights' := by
  rw [show rights' = rights from funext hr]
  exact h

theorem start (hz : ∀ x, t ≤ x → x < t + 4096 → P.mem x = 0) (hp : Pool pool P (t :: held)) :
    Building pool held P t (fun _ => none) where
  pool := by
    rw [tabs, tree_zero hz]
    exact hp
  sparse i hi _ _ := (child_zero hz hi).2
  dirs := dirs_zero hz
  looks _ _ := look_zero hz

/-- Identity-map one more range of the first or third gigabyte. -/
theorem map (a size perm : Nat) (h : Building pool held P t rights) (ha : a % 4096 = 0)
    (hs : size % 4096 = 0) (hpos : 0 < size) (hperm : perm < 256) (hflags : perm &&& permMask ≠ 0)
    (hslot : a + size ≤ 0x40000000 ∨ 0x80000000 ≤ a ∧ a + size ≤ 0xc0000000)
    (hnew : ∀ v, a ≤ v → v < a + size → rights v = none) :
    Ends (fun e => e = .outOfPages ∧ pool.pages.length < 1030 + held.length)
      (mapPages P t a a size perm)
      (fun P' => Building pool held P' t
        (fun v => if a ≤ v ∧ v < a + size then some perm else rights v)) := by
  have hmax : vaMax = 0x4000000000 := rfl
  have hsparse : ∀ {n m' new}, 4096 * n ≤ size → Mapped a n a perm P.mem m' t new → Sparse m' t := by
    intro n m' new hn hm i hi h0 h2
    refine (child_congr (hm.others i hi fun k hk => ?_)).trans (h.sparse i hi h0 h2)
    rw [vpn_two]
    omega
  have hblank : ∀ v, a ≤ v → v < a + size → look v 2 P.mem t = none := by
    intro v hl hu
    rw [h.looks v (by omega), hnew v hl hu]
    rfl
  have hends := mapPages_ends h.pool (.refl _) ha ha hs hpos hperm hflags (by omega) (by omega) hblank
  refine ⟨fun hrun => ?_, fun he => ?_⟩
  · obtain ⟨new, hp', hm⟩ := hends.result hrun
    refine ⟨hp'.perm ?_, hsparse (by omega) hm, hm.dirs h.dirs, fun v hv => ?_⟩
    · rw [← List.append_assoc]
      exact hm.tables.symm.append_right held
    · rw [hm.looks v hv, h.looks v hv, Nat.mul_div_cancel' (Nat.dvd_of_mod_eq_zero hs)]
      split
      · rw [identityLeaf, Option.map_some, Nat.add_sub_cancel' (by omega)]
      · rfl
  · obtain ⟨hout, n, new, m, hn, hm, _, hfree⟩ := hends.failure he
    have hcount := Pool.count h.pool
    have hfew := (hsparse (Nat.le_of_lt hn) hm).tabs_length
    rw [hm.tables.length_eq, List.length_append] at hfew
    rw [List.length_append] at hcount
    exact ⟨hout, by omega⟩

theorem kernelMap (h : Building pool held P t rights) (hu : ∀ v perm, rights v = some perm →
    perm < 256 ∧ perm &&& pteU = 0) : KernelMap P.mem t where
  dirs := h.dirs
  slot := h.sparse _ (by decide) (by decide) (by decide)
  noUser v e he := by
    -- the walk of any address is that of one in the first or third gigabyte
    have hslot : vpn v 2 = 0 ∨ vpn v 2 = 2 := by
      by_contra hn
      rw [not_or] at hn
      rw [look_succ, h.sparse _ (vpn_lt v 2) hn.1 hn.2] at he
      cases he
    have hlow : vpn v 2 * 0x40000000 + v % 0x40000000 < vaMax := by
      unfold vaMax
      omega
    have hpath : SamePath v 2 (vpn v 2 * 0x40000000 + v % 0x40000000) := by
      intro k hk
      have hcases : k = 0 ∨ k = 1 ∨ k = 2 := by omega
      rcases hcases with rfl | rfl | rfl
      · simp only [vpn_zero]
        omega
      · simp only [vpn_one]
        omega
      · have := vpn_lt v 2
        rw [vpn_two (_ + _)]
        omega
    rw [← hpath.look, h.looks _ hlow] at he
    obtain ⟨perm, hr, rfl⟩ := Option.map_eq_some_iff.mp he
    obtain ⟨hp, hn⟩ := hu _ perm hr
    have hword := Nat.lt_of_le_of_lt (Nat.div_mul_le_self _ 4096)
      (Nat.lt_trans hlow (by decide : vaMax < 2 ^ 64))
    rw [leaf_flag (Nat.mul_mod_left _ _) hword hp (by decide) (by decide)]
    exact hn

end Building

/-- A stretch of memory that is mapped with one set of rights. -/
structure Section where
  start : Nat
  stop : Nat
  perm : Nat

namespace Section

/-- A section `map_pages` accepts, in the first or third gigabyte, unless empty. -/
structure Sound (s : Section) : Prop where
  first : s.start % 4096 = 0
  last : s.stop % 4096 = 0
  perm : s.perm < 256 ∧ s.perm &&& permMask ≠ 0
  place : s.stop ≤ 0x40000000 ∨ 0x80000000 ≤ s.start ∧ s.stop ≤ 0xc0000000

/-- Identity-map a section. -/
def map (root : Nat) (P : Phys) (s : Section) : Except Panic Phys :=
  if s.start < s.stop then mapPages P root s.start s.start (s.stop - s.start) s.perm else .ok P

end Section

/-- The rights of the section an address lies in. -/
def rightsOf (ss : List Section) (v : Nat) : Option Nat :=
  (ss.find? (fun s => decide (s.start ≤ v ∧ v < s.stop))).map Section.perm

theorem rightsOf_none (h : ∀ s ∈ ss, ¬(s.start ≤ v ∧ v < s.stop)) : rightsOf ss v = none := by
  unfold rightsOf
  rw [List.find?_eq_none.mpr fun s hs => by simpa using h s hs]
  rfl

theorem rightsOf_concat (done : List Section) (s : Section)
    (hd : s.start ≤ v → v < s.stop → rightsOf done v = none) :
    rightsOf (done ++ [s]) v = if s.start ≤ v ∧ v < s.stop then some s.perm else rightsOf done v := by
  unfold rightsOf at hd ⊢
  rw [List.find?_append, Option.map_or]
  split
  next hin =>
    rw [hd hin.1 hin.2, List.find?_cons_of_pos (by simpa using hin)]
    rfl
  next hout =>
    rw [List.find?_cons_of_neg (by simpa using hout), List.find?_nil]
    exact Option.or_none

/-- Map sections that lie apart, one after the other. -/
theorem Building.sections (ss : List Section) (b : Building pool held P t (rightsOf done))
    (hs : ∀ s ∈ ss, s.Sound) (hd : ∀ s ∈ ss, ∀ v, s.start ≤ v → v < s.stop → rightsOf done v = none)
    (hp : ss.Pairwise (fun s s' => s.stop ≤ s'.start ∨ s'.stop ≤ s.start)) :
    Ends (fun e => e = .outOfPages ∧ pool.pages.length < 1030 + held.length) (ss.foldlM (Section.map t) P)
      (fun P' => Building pool held P' t (rightsOf (done ++ ss))) := by
  induction ss generalizing P done with
  | nil =>
    rw [List.append_nil]
    exact .ok b
  | cons s ss ih =>
    obtain ⟨hfirst, hlast, ⟨hperm, hflags⟩, hplace⟩ := hs s List.mem_cons_self
    have hnew := hd s List.mem_cons_self
    obtain ⟨hapart, hp⟩ := List.pairwise_cons.mp hp
    have hone : Ends (fun e => e = .outOfPages ∧ pool.pages.length < 1030 + held.length)
        (Section.map t P s) (fun P' => Building pool held P' t (rightsOf (done ++ [s]))) := by
      unfold Section.map
      split
      next hlt =>
        refine (b.map s.start (s.stop - s.start) s.perm hfirst (by omega) (by omega) hperm hflags
          (by omega) fun v hl hu => hnew v hl (by omega)).mono fun P' b' => b'.congr fun v => ?_
        rw [rightsOf_concat done s (hnew v), Nat.add_sub_cancel' (Nat.le_of_lt hlt)]
      next hle =>
        refine .ok (b.congr fun v => ?_)
        rw [rightsOf_concat done s (hnew v), if_neg (by omega)]
    rw [List.foldlM_cons, List.append_cons]
    refine hone.bind fun P₁ _ b₁ => ih b₁ (fun s' hs' => hs s' (List.mem_cons_of_mem _ hs')) ?_ hp
    intro s' hs' v hl hu
    have := hapart s' hs'
    rw [rightsOf_concat done s (hnew v), if_neg (by omega)]
    exact hd s' (List.mem_cons_of_mem _ hs') v hl hu

/-- What `kvmmake` maps: devices and memory as data, code executable and not
writable, constants and program images only readable. -/
def kernelSections (L : Layout) : List Section :=
  [⟨uart0, uart0 + pageSize, pteR ||| pteW⟩, ⟨plic, plic + plicSize, pteR ||| pteW⟩,
    ⟨L.textStart, L.textEnd, pteR ||| pteX⟩, ⟨L.userStart, L.userEnd, pteR⟩,
    ⟨L.rodataStart, L.rodataEnd, pteR⟩, ⟨L.dataStart, L.kernelEnd, pteR ||| pteW⟩,
    ⟨L.kernelEnd, physTop, pteR ||| pteW⟩]

theorem kvmmake_eq (L : Layout) (P : Phys) : kvmmake L P = (do
    let r ← allocPage P
    let P ← (kernelSections L).foldlM (Section.map r.1) r.2
    .ok (r.1, P)) := by
  have hro := L.rodata
  have hdata := L.data
  have htop : L.kernelEnd < physTop := by
    have := L.top
    unfold heapSize at this
    omega
  unfold kvmmake kernelSections
  refine congrArg _ (funext fun r => ?_)
  simp only [List.foldlM_cons, List.foldlM_nil, Section.map, L.text, hro.2, hdata.2, htop,
    if_pos, bind_assoc, pure_bind]
  rfl

theorem kernelSections_sound (L : Layout) : ∀ s ∈ kernelSections L, s.Sound := by
  have hbase := L.base
  have htext := L.text
  have huser := L.user
  have hro := L.rodata
  have hdata := L.data
  have htop := L.top
  unfold physTop dramBase heapSize at htop
  have hmid : ∀ {a b perm : Nat}, 0x80200000 ≤ a → b ≤ 0x88000000 → a % pageSize = 0 → b % pageSize = 0 →
      perm < 256 ∧ perm &&& permMask ≠ 0 → (Section.mk a b perm).Sound := by
    intro a b perm ha hb h1 h2 hp
    exact ⟨h1, h2, hp, .inr ⟨Nat.le_trans (by decide) ha, Nat.le_trans hb (by decide)⟩⟩
  intro s hs
  simp only [kernelSections, List.mem_cons, List.not_mem_nil, or_false] at hs
  rcases hs with rfl | rfl | rfl | rfl | rfl | rfl | rfl
  · exact ⟨rfl, rfl, by decide, .inl (by decide)⟩
  · exact ⟨rfl, rfl, by decide, .inl (by decide)⟩
  · exact hmid (by omega) (by omega) (hbase ▸ rfl) L.textEnd_page (by decide)
  · exact hmid (by omega) (by omega) L.userStart_page L.userEnd_page (by decide)
  · exact hmid (by omega) (by omega) L.rodataStart_page L.rodataEnd_page (by decide)
  · exact hmid (by omega) (by omega) L.dataStart_page L.kernelEnd_page (by decide)
  · exact hmid (by omega) (Nat.le_refl _) L.kernelEnd_page rfl (by decide)

theorem kernelSections_apart (L : Layout) :
    (kernelSections L).Pairwise (fun s s' => s.stop ≤ s'.start ∨ s'.stop ≤ s.start) := by
  have hbase := L.base
  have htext := L.text
  have huser := L.user
  have hro := L.rodata
  have hdata := L.data
  have hlow : plic + plicSize ≤ uart0 ∧ uart0 + pageSize ≤ 0x80200000 := by decide
  simp only [kernelSections, List.pairwise_cons, List.mem_cons, List.not_mem_nil, or_false,
    forall_eq_or_imp, forall_eq, IsEmpty.forall_iff, implies_true, List.Pairwise.nil, and_true]
  omega

/-- The kernel's table, or not enough pages for it. -/
theorem kvmmake_ends (hpool : Pool pool P held) :
    Ends (fun e => e = .outOfPages ∧ pool.pages.length < 1030 + held.length) (kvmmake L P)
      (fun r => Building pool held r.2 r.1 (rightsOf (kernelSections L))) := by
  have hroot : Ends (fun e => e = .outOfPages ∧ pool.pages.length < 1030 + held.length) (allocPage P)
      (fun r => Building pool held r.2 r.1 (rightsOf [])) := by
    obtain ⟨⟨o, P₀⟩, ha⟩ := hpool.alloc_total
    unfold allocPage
    rw [ha, ok_bind]
    cases o with
    | none =>
      have := Pool.count hpool
      have := (hpool.alloc_none ha).2
      exact .error ⟨rfl, by omega⟩
    | some root =>
      obtain ⟨hp₀, _, _, hz⟩ := hpool.alloc_some ha
      exact .ok (.start hz hp₀)
  rw [kvmmake_eq]
  refine hroot.bind fun r _ b => ?_
  refine (b.sections (kernelSections L) (kernelSections_sound L) (fun _ _ _ _ _ => rfl)
    (kernelSections_apart L)).bind fun P' _ b' => .ok b'

theorem kernelRights (h : rightsOf (kernelSections L) v = some perm) :
    perm < 256 ∧ perm &&& pteU = 0 ∧ (perm &&& pteW = 0 ∨ perm &&& pteX = 0) := by
  obtain ⟨s, hs, rfl⟩ := Option.map_eq_some_iff.mp h
  have hmem := List.mem_of_find?_eq_some hs
  simp only [kernelSections, List.mem_cons, List.not_mem_nil, or_false] at hmem
  rcases hmem with rfl | rfl | rfl | rfl | rfl | rfl | rfl <;> dsimp only <;> decide

/-- The kernel's table, as every later operation finds it. -/
theorem kvmmake_spec (hpool : Pool pool P []) (h : kvmmake L P = .ok (root, P')) :
    Pool pool P' (tabs 3 P'.mem root) ∧ KernelMap P'.mem root := by
  have b := (kvmmake_ends hpool).result h
  have hp := b.pool
  rw [List.append_nil] at hp
  exact ⟨hp, b.kernelMap fun v perm hr => ⟨(kernelRights hr).1, (kernelRights hr).2.1⟩⟩

/-- The boot's table is complete before the pages run out. -/
theorem kvmmake_total (hpool : Pool pool P []) (hrich : 1030 ≤ pool.pages.length) :
    ∃ root P', kvmmake L P = .ok (root, P') ∧ pool.pages.length ≤ P'.freePages + 1027 := by
  have hends := kvmmake_ends (L := L) hpool
  cases hrun : kvmmake L P with
  | error e =>
    have := (hends.failure hrun).2
    rw [List.length_nil] at this
    omega
  | ok r =>
    have b := hends.result hrun
    have hcount := Pool.count b.pool
    have hfew := b.sparse.tabs_length
    rw [List.append_nil] at hcount
    exact ⟨r.1, r.2, rfl, by omega⟩

end Osmium.Vm
