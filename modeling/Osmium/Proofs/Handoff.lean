import Osmium.Main
import Osmium.Proofs.KernelView
import Osmium.Proofs.Vector

namespace Osmium.Asm
open Lib Rv64

variable {P : Binary Reg Csr Label}

/-- Before there is a page table. -/
def bare (_ : Mem) (_ : Bool) (va : Nat) : Option Nat := some va

/-- `entry.S` behind the call. -/
def hang : Code := [.label .hang, .wfi, .j .hang]

/-- `entry.S` behind the loop. -/
def bssDone : Code := .la .sp .bootStackTop :: .call .kmain :: hang

/-- The loop of `entry.S`, from its test on. -/
def bssLoop : Code :=
  [ .bgeu .t0 .t1 .bssDone,
    .sd none 0 .t0,
    .addi .t0 .t0 8,
    .j .bssLoop,
    .label .bssDone ] ++ bssDone

theorem entry_eq : entry = .la .t0 .bssStart :: .la .t1 .bssEnd :: .label .bssLoop :: bssLoop := rfl

theorem after_bssLoop (h : P.text = entry) : P.after .bssLoop = bssLoop := by
  rw [Binary.after, h]
  rfl

theorem after_bssDone (h : P.text = entry) : P.after .bssDone = bssDone := by
  rw [Binary.after, h]
  rfl

theorem bare_window (h : P.mmu = bare) (ha : a % 8 = 0) (hfit : a + n ≤ 2 ^ 64) :
    Window P m a n := by
  refine ⟨ha, hfit, fun m' _ write va _ _ => ?_⟩
  rw [h]
  rfl

theorem store64_zero (m : Mem) (a x : Nat) : store64 m a 0 x = if a ≤ x ∧ x < a + 8 then 0 else m x := by
  unfold store64 store
  rw [Nat.zero_div]
  rfl

/-- Bytes up to the end of `.bss` are cleared, the others left alone. -/
def Cleared (a b : Nat) (m m' : Mem) : Prop := ∀ x, m' x = if a ≤ x ∧ x < b then 0 else m x

/-- The loop clears what is left of `.bss`, a doubleword at a time. -/
theorem bssLoop_steps (ht : P.text = entry) (hP : P.mmu = bare) (n : Nat) (h0 : (r .t0).toNat + 8 * n = (r .t1).toNat)
    (ha : (r .t0).toNat % 8 = 0) :
    ∃ r' m', Steps P ⟨r, c, m, bssLoop⟩ ⟨r', c, m', bssDone⟩ ∧ (∀ x, x ≠ .t0 → r' x = r x) ∧
      Cleared (r .t0).toNat (r .t1).toNat m m' := by
  induction n generalizing r m with
  | zero =>
    refine ⟨r, m, ?_, fun _ _ => rfl, fun x => ?_⟩
    · apply Steps.bgeu
      rw [if_neg (by rw [BitVec.lt_def]; omega), after_bssDone ht]
      exact .refl
    · rw [if_neg (by omega)]
  | succ n ih =>
    have hlt := (r .t1).isLt
    obtain ⟨r₁, hr₁⟩ : ∃ r₁, r₁ = Function.update r .t0 (r .t0 + BitVec.ofInt 64 8) := ⟨_, rfl⟩
    have hnext : (r₁ .t0).toNat = (r .t0).toNat + 8 := by
      rw [hr₁, Function.update_self, show BitVec.ofInt 64 8 = 8#64 from rfl, BitVec.toNat_add]
      simp only [BitVec.toNat_ofNat]
      omega
    have hstop : r₁ .t1 = r .t1 := by
      rw [hr₁, Function.update_of_ne (by decide)]
    obtain ⟨r', m', hsteps, hregs, hclear⟩ := ih (r := r₁) (m := store64 m ((r .t0).toNat + 0) 0)
      (by rw [hnext, hstop]; omega) (by rw [hnext]; omega)
    refine ⟨r', m', ?_, fun x hx => ?_, fun x => ?_⟩
    · apply Steps.bgeu
      rw [if_pos (by rw [BitVec.lt_def]; omega)]
      have hw : Window P m (r .t0).toNat 8 := bare_window hP ha (by omega)
      refine Steps.sd (hw.reach rfl rfl (Nat.le_refl _) true) ?_
      apply Steps.addi
      apply Steps.j
      rw [after_bssLoop ht, ← hr₁]
      exact hsteps
    · rw [hregs x hx, hr₁, Function.update_of_ne hx]
    · rw [hclear x, hnext, hstop, Nat.add_zero, store64_zero]
      by_cases hx : (r .t0).toNat ≤ x ∧ x < (r .t1).toNat
      · rw [if_pos hx]
        split
        · rfl
        · rw [if_pos (by omega)]
      · rw [if_neg hx, if_neg (by omega), if_neg (by omega)]

/-- What the linker script says of `.bss`. -/
structure Linked (E : Env) (P : Binary Reg Csr Label) : Prop where
  text : P.text = entry
  mmu : P.mmu = bare
  aligned : (P.addr .bssStart).toNat % 8 = 0 ∧ (P.addr .bssEnd).toNat % 8 = 0
  order : (P.addr .bssStart).toNat ≤ (P.addr .bssEnd).toNat
  data : E.dataStart ≤ (P.addr .bssStart).toNat ∧ (P.addr .bssEnd).toNat ≤ E.kernelEnd

/-- `entry.S` comes to its call of `kmain`, with the firmware's arguments. -/
theorem entry_steps (hP : Linked E P) :
    ∃ r' m', Steps P ⟨r, c, m, entry⟩ ⟨r', c, m', .call .kmain :: hang⟩ ∧ r' .sp = P.addr .bootStackTop ∧
      (∀ x, x ≠ .t0 → x ≠ .t1 → x ≠ .sp → r' x = r x) ∧
      Cleared (P.addr .bssStart).toNat (P.addr .bssEnd).toNat m m' := by
  obtain ⟨r₁, hr₁⟩ : ∃ r₁, r₁ = Function.update (Function.update r .t0 (P.addr .bssStart)) .t1 (P.addr .bssEnd) :=
    ⟨_, rfl⟩
  have h0 : r₁ .t0 = P.addr .bssStart := by
    rw [hr₁, Function.update_of_ne (by decide), Function.update_self]
  have h1 : r₁ .t1 = P.addr .bssEnd := by
    rw [hr₁, Function.update_self]
  have halign := hP.aligned
  have horder := hP.order
  obtain ⟨r', m', hsteps, hregs, hclear⟩ := bssLoop_steps (r := r₁) (c := c) (m := m) hP.text hP.mmu
    (((P.addr .bssEnd).toNat - (P.addr .bssStart).toNat) / 8) (by rw [h0, h1]; omega) (by rw [h0]; exact halign.1)
  rw [h0, h1] at hclear
  refine ⟨Function.update r' .sp (P.addr .bootStackTop), m', ?_, Function.update_self _ _ _, fun x hx hy hz => ?_,
    hclear⟩
  · rw [entry_eq]
    apply Steps.la
    apply Steps.la
    apply Steps.label
    rw [← hr₁]
    apply Relation.ReflTransGen.trans hsteps
    apply Steps.la
    exact .refl
  · rw [Function.update_of_ne hz, hregs x hx, hr₁, Function.update_of_ne hy, Function.update_of_ne hx]

end Osmium.Asm

namespace Osmium.Vm
open Lib

variable {L : Layout} {pool : PagePool L.allocStart}

/-- The kernel's table grows in pages of the allocator only. -/
theorem Building.map_writes {granted : Nat → Option Nat} (h : Building pool held P t granted) (s : Section) (hs : s.Sound)
    (hnew : ∀ v, s.start ≤ v → v < s.stop → granted v = none) (run : s.map t P = .ok P') :
    WritesIn P.mem P'.mem pool.pages := by
  obtain ⟨hfirst, hlast, ⟨hperm, hflags⟩, hplace⟩ := hs
  unfold Section.map at run
  split at run
  next hlt =>
    have hmax : vaMax = 0x4000000000 := rfl
    have hblank : ∀ v, s.start ≤ v → v < s.start + (s.stop - s.start) → look v 2 P.mem t = none := by
      intro v hl hu
      rw [h.looks v (by omega), hnew v hl (by omega)]
      rfl
    have hends := mapPages_ends h.pool (.refl _) hfirst hfirst (by omega) (by omega) hperm hflags (by omega)
      (by omega) hblank
    obtain ⟨new, hpool, hm⟩ := hends.result run
    apply hm.writes.mono
    intro p hp
    apply hpool.mem
    rw [← List.append_assoc]
    exact List.mem_append_left _ hp
  next =>
    obtain rfl := Except.ok.inj run
    exact .refl _ _

theorem Building.sections_writes (ss : List Section) (b : Building pool held P t (rightsOf done))
    (hs : ∀ s ∈ ss, s.Sound) (hd : ∀ s ∈ ss, ∀ v, s.start ≤ v → v < s.stop → rightsOf done v = none)
    (hp : ss.Pairwise (fun s s' => s.stop ≤ s'.start ∨ s'.stop ≤ s.start))
    (run : ss.foldlM (Section.map t) P = .ok P') : WritesIn P.mem P'.mem pool.pages := by
  induction ss generalizing P done with
  | nil =>
    obtain rfl := Except.ok.inj run
    exact .refl _ _
  | cons s ss ih =>
    rw [List.foldlM_cons, bind_ok] at run
    obtain ⟨P₁, hone, hrest⟩ := run
    obtain ⟨hapart, hp⟩ := List.pairwise_cons.mp hp
    have hnew := hd s List.mem_cons_self
    have hfirst := b.map_writes s (hs s List.mem_cons_self) hnew hone
    have b₁ : Building pool held P₁ t (rightsOf (done ++ [s])) := by
      apply (b.sections [s] ?_ ?_ (List.pairwise_singleton _ _)).result
      · rw [List.foldlM_cons, hone]
        rfl
      · intro s' hs'
        obtain rfl := List.mem_singleton.mp hs'
        exact hs s' List.mem_cons_self
      · intro s' hs'
        obtain rfl := List.mem_singleton.mp hs'
        exact hnew
    refine hfirst.trans (ih b₁ (fun s' hs' => hs s' (List.mem_cons_of_mem _ hs')) ?_ hp hrest)
    intro s' hs' v hl hu
    have := hapart s' hs'
    rw [rightsOf_concat done s (hnew v), if_neg (by omega)]
    exact hd s' (List.mem_cons_of_mem _ hs') v hl hu

theorem kvmmake_writes (hpool : Pool pool P []) (run : kvmmake L P = .ok (root, P')) :
    WritesIn P.mem P'.mem pool.pages := by
  rw [kvmmake_eq] at run
  simp only [bind_ok, Except.ok.injEq, Prod.mk.injEq] at run
  obtain ⟨⟨t, P₁⟩, ha, P₂, hmap, rfl, rfl⟩ := run
  obtain ⟨hpool₁, _, hw, hz⟩ := hpool.alloc_some (allocPage_some ha)
  have hstart : Building pool [] P₁ t (rightsOf []) := .start hz hpool₁
  have hfirst : WritesIn P.mem P₁.mem pool.pages := by
    apply hw.mono
    intro p hp
    obtain rfl := List.mem_singleton.mp hp
    exact hpool₁.mem List.mem_cons_self
  exact hfirst.trans (hstart.sections_writes _ (kernelSections_sound L) (fun _ _ _ _ _ => rfl)
    (kernelSections_apart L) hmap)

end Osmium.Vm

namespace Osmium
open Lib Vm Rv64

variable {T : Type} {E : Env} {s₀ s : Sys T}

theorem Pool.self_test_writes {L : Layout} {pool : PagePool L.allocStart} (h : Pool pool P []) (ha : allocPage P = .ok (a, P₁))
    (hb : allocPage P₁ = .ok (b, P₂)) (hfa : Kalloc.free L.allocStart P₂ a = .ok P₃)
    (hfb : Kalloc.free L.allocStart P₃ b = .ok P₄) : WritesIn P.mem P₄.mem pool.pages := by
  obtain ⟨h₁, _, w₁, _⟩ := h.alloc_some (allocPage_some ha)
  obtain ⟨h₂, _, w₂, _⟩ := h₁.alloc_some (allocPage_some hb)
  obtain ⟨P₃', hfa', h₃, _, w₃⟩ := (h₂.perm (.swap _ _ _)).free
  obtain rfl := Except.ok.inj (hfa'.symm.trans hfa)
  obtain ⟨P₄', hfb', _, _, w₄⟩ := h₃.free
  obtain rfl := Except.ok.inj (hfb'.symm.trans hfb)
  have hone : ∀ {m m' : Mem} {p}, p ∈ [b, a] → WritesIn m m' [p] → WritesIn m m' pool.pages := by
    intro m m' p hp hw
    apply hw.mono
    intro q hq
    obtain rfl := List.mem_singleton.mp hq
    exact h₂.mem hp
  have hain : a ∈ [b, a] := List.mem_cons_of_mem _ List.mem_cons_self
  have hbin : b ∈ [b, a] := List.mem_cons_self
  exact (hone hain w₁).trans ((hone hbin w₂).trans ((hone hain w₃).trans (hone hbin w₄)))

/-- Nothing is written at boot but pages of the allocator and the heap. -/
theorem boot_outside (run : kmain E reserved m regs = .ok s₀) :
    ∃ res, Kalloc.reservedRange reserved = .ok res ∧ ∀ x, Apart E.heapStart heapSize x 1 →
      (∀ q ∈ (Kalloc.seedPool E.toLayout res).pages, ¬(q ≤ x ∧ x < q + 4096)) → s₀.phys.mem x = m x := by
  simp only [kmain, bind_ok, Except.ok.injEq] at run
  obtain ⟨P, hinit, ⟨a, P₁⟩, ha, ⟨b, P₂⟩, hb, P₃, hfa, P₄, hfb, ⟨root, P₅⟩, hkvm, ⟨m', hp⟩, hheap,
    rfl⟩ := run
  obtain ⟨res, hres⟩ := Kalloc.reserved_of_init hinit
  obtain ⟨P', hinit', hpool, hseeds⟩ := Kalloc.init_spec E.toLayout hres m
  obtain rfl := Except.ok.inj (hinit'.symm.trans hinit)
  have htest := hpool.self_test_writes ha hb hfa hfb
  have htable := kvmmake_writes (hpool.self_test ha hb hfa hfb) hkvm
  obtain ⟨m₁, h₁, hheap', _, hsame⟩ := Heap.Carries.start E.toLayout P₅.mem 0
  obtain ⟨rfl, rfl⟩ := Prod.mk.inj (Except.ok.inj (hheap'.symm.trans hheap))
  refine ⟨res, hres, fun x hx hq => ?_⟩
  have hpages := hseeds.trans (htest.trans htable)
  exact (hsame x 1 hx x (Nat.le_refl _) (Nat.lt_succ_self _)).trans (hpages x hq)

/-- What is neither heap nor a page of the allocator stays as `kmain` found it. -/
theorem run_outside (run : kmain E reserved m regs = .ok s₀) (steps : Relation.ReflTransGen (Step E) s₀ s) :
    ∃ res, Kalloc.reservedRange reserved = .ok res ∧ ∀ x, Apart E.heapStart heapSize x 1 →
      (∀ q ∈ (Kalloc.seedPool E.toLayout res).pages, ¬(q ≤ x ∧ x < q + 4096)) → s.phys.mem x = m x := by
  obtain ⟨res, hres, hboot⟩ := boot_outside run
  have hreach : Reachable E reserved s₀ := .boot _ _ run
  refine ⟨res, hres, ?_⟩
  induction steps with
  | refl => exact hboot
  | tail before move ih =>
    obtain ⟨res', lost, hres', hs⟩ := reachable_sane (hreach.steps before)
    obtain rfl := Except.ok.inj (hres'.symm.trans hres)
    intro x hx hq
    exact ((step_image hs move).outside x hx hq).trans (ih x hx hq)

/-- Only the header counts. -/
theorem dtbReserved_congr (h : SameOn m m' dtb 8) : dtbReserved m' dtb = dtbReserved m dtb := by
  unfold dtbReserved
  rw [load_congr (h.mono (Nat.le_refl _) (by omega)), load_congr (h.mono (by omega) (by omega))]

/-- The pages of a reserved range are not the allocator's. -/
theorem reserved_apart (hres : Kalloc.reservedRange (some (a, e)) = .ok res) (hl : a ≤ x) (hu : x < e)
    (hq : q ∈ (Kalloc.seedPool L res).pages) : ¬(q ≤ x ∧ x < q + 4096) := by
  simp only [Kalloc.reservedRange] at hres
  split at hres
  · obtain rfl := Except.ok.inj hres
    rw [Kalloc.seedPool_pages, Kalloc.mem_seeds L.allocStart_range.2] at hq
    have hstop := Kalloc.nextMultipleOf_range e
    unfold pageSize at hq hstop
    dsimp only at hq
    omega
  · cases hres

/-- From the first instruction on, and however long the system runs, what the
firmware left in memory stays: its own part, the image, and the device tree, whose
header the kernel reads after `entry.S` has cleared `.bss`. -/
theorem firmware_kept (hP : Asm.Linked E P) (hat : M.code = Asm.entry) :
    ∃ M', Steps P M M' ∧ M'.code = .call .kmain :: Asm.hang ∧ M'.regs .a0 = M.regs .a0 ∧ M'.regs .a1 = M.regs .a1 ∧
      M'.regs .sp = P.addr .bootStackTop ∧
      Asm.Cleared (P.addr .bssStart).toNat (P.addr .bssEnd).toNat M.mem M'.mem ∧
      ∀ regs (s₀ s : Sys T), kmainAt E (M.regs .a1).toNat M'.mem regs = .ok s₀ →
        Relation.ReflTransGen (Step E) s₀ s →
        (∀ x, x < E.dataStart ∨ physTop ≤ x → s.phys.mem x = M.mem x) ∧
        ∀ e, dtbReserved M.mem (M.regs .a1).toNat = .ok (some ((M.regs .a1).toNat, e)) →
          E.allocStart ≤ (M.regs .a1).toNat → ∀ x, (M.regs .a1).toNat ≤ x → x < e → s.phys.mem x = M.mem x := by
  obtain ⟨r, c, m, code⟩ := M
  obtain rfl : code = Asm.entry := hat
  obtain ⟨r', m', hsteps, hsp, hregs, hclear⟩ := Asm.entry_steps (r := r) (c := c) (m := m) hP
  refine ⟨_, hsteps, rfl, hregs _ (by decide) (by decide) (by decide), hregs _ (by decide) (by decide) (by decide), hsp,
    hclear, fun regs s₀ s boot steps => ?_⟩
  dsimp only at boot ⊢
  have hdata := hP.data
  have hbelow : E.dataStart < E.heapStart := E.data.2
  have hheap : E.allocStart = E.heapStart + heapSize := rfl
  have htop : E.allocStart ≤ physTop := E.allocStart_range.2
  have hkernel : E.kernelEnd ≤ E.allocStart := by
    have := E.allocStart_eq
    omega
  have hkept : ∀ x, x < E.dataStart ∨ E.allocStart ≤ x → m' x = m x := by
    intro x hx
    rw [hclear x, if_neg (by omega)]
  unfold kmainAt at boot
  rw [bind_ok] at boot
  obtain ⟨reserved, hreserved, boot⟩ := boot
  obtain ⟨res, hres, hout⟩ := run_outside boot steps
  refine ⟨fun x hx => ?_, fun e hdtb habove x hl hu => ?_⟩
  · rw [← hkept x (by omega)]
    apply hout x (by unfold Apart; omega)
    intro q hq
    have h1 := (Kalloc.seedPool E.toLayout res).above q hq
    have h2 := (Kalloc.seedPool E.toLayout res).below q hq
    omega
  · have hsame : SameOn m m' (r .a1).toNat 8 := fun y hy _ => hkept y (.inr (Nat.le_trans habove hy))
    rw [dtbReserved_congr hsame, hdtb] at hreserved
    obtain rfl := Except.ok.inj hreserved
    rw [← hkept x (by omega)]
    apply hout x (by unfold Apart; omega)
    intro q hq
    exact reserved_apart hres hl hu hq

/-- A device tree of one page, 2 MiB below the top of memory. -/
def smallDtb : Mem := store (store (fun _ => 0) 0x87e00000 4 0xedfe0dd0) 0x87e00004 4 0x00100000

/-- Below a reserved range every page is seeded. -/
theorem Kalloc.seedsFrom_below (h : page + 4096 * n ≤ res.1) (hk : n ≤ k) : n ≤ (seedsFrom res page k).length := by
  induction n generalizing page k with
  | zero => exact Nat.zero_le _
  | succ n ih =>
    cases k with
    | zero => exact absurd hk (Nat.not_succ_le_zero n)
    | succ k =>
      have hrest : n ≤ (seedsFrom res (page + pageSize) k).length :=
        ih (by unfold pageSize; omega) (Nat.le_of_succ_le_succ hk)
      rw [seedsFrom, if_pos (by unfold pageSize; omega), List.length_cons]
      exact Nat.succ_le_succ hrest

/-- The boot on a machine with that tree. -/
theorem firmware_kept_small : ∃ (P : Binary Reg Asm.Csr Asm.Label) (M M' : Machine Reg Asm.Csr Asm.Label) (s : Sys Nat),
    M.code = Asm.entry ∧ Steps P M M' ∧ M'.code = .call .kmain :: Asm.hang ∧
    kmainAt smallEnv 0x87e00000 M'.mem (fun _ => 0) = .ok s ∧
    ∀ x, 0x87e00000 ≤ x → x < 0x87e01000 → s.phys.mem x = M.mem x := by
  let P : Binary Reg Asm.Csr Asm.Label :=
    ⟨Asm.entry, fun | .bssStart => 0x80240000 | .bssEnd => 0x80250000 | _ => 0x80250000, Asm.bare⟩
  let M : Machine Reg Asm.Csr Asm.Label := ⟨fun | .a1 => 0x87e00000 | _ => 0, fun _ => 0, smallDtb, Asm.entry⟩
  have hP : Asm.Linked smallEnv P := ⟨rfl, rfl, by decide, by decide, by decide⟩
  have hheader : dtbReserved smallDtb 0x87e00000 = .ok (some (0x87e00000, 0x87e01000)) := by decide
  obtain ⟨M', hsteps, hcode, _, _, _, hclear, hkept⟩ := firmware_kept (T := Nat) (M := M) hP rfl
  have harg : (M.regs .a1).toNat = 0x87e00000 := by decide
  rw [harg] at hkept
  have hsame : SameOn smallDtb M'.mem 0x87e00000 8 := by
    intro x hl _
    rw [hclear x, if_neg]
    have hstop : (P.addr .bssEnd).toNat = 0x80250000 := by decide
    omega
  have hrich : 1030 ≤ (Kalloc.seeds smallEnv.allocStart (0x87e00000, 0x87e01000)).length := by
    rw [Kalloc.seeds]
    exact Kalloc.seedsFrom_below (by decide) (by decide)
  have hres : Kalloc.reservedRange (some (0x87e00000, 0x87e01000)) = .ok (0x87e00000, 0x87e01000) := rfl
  obtain ⟨s, run, _⟩ := kmain_total (T := Nat) smallEnv hres hrich M'.mem fun _ => 0
  have hboot : kmainAt smallEnv 0x87e00000 M'.mem (fun _ => 0) = .ok s := by
    unfold kmainAt
    rw [dtbReserved_congr hsame, hheader, ok_bind]
    exact run
  refine ⟨P, M, M', s, rfl, hsteps, hcode, hboot, ?_⟩
  exact (hkept _ s s hboot .refl).2 0x87e01000 hheader (by decide)

end Osmium
