import Osmium.Asm

namespace Osmium.Asm
open Lib Rv64

variable {P : Binary Reg Csr Label} {r : Reg → Word} {c : Csr → Word} {m : Mem} {a : Nat}

/-- The frame of a machine: what a trap has to save, and a return to bring back. -/
def frameOf (r : Reg → Word) (c : Csr → Word) : TrapFrame :=
  { regs := fun x => (r x).toNat
    sepc := (c .sepc).toNat
    sstatus := statusOf (c .sstatus) }

/-- The offsets in the text are those of the declaration. -/
theorem saveGp_eq : saveGp = saves frameSlot .sp Osmium.loadGp := rfl

theorem loadGp_eq : loadGp = loads frameSlot .sp Osmium.loadGp := rfl

theorem gp_slots : Offsets 272 (Osmium.loadGp.map frameSlot) := ⟨by decide, by decide, by decide⟩

theorem gp_slots_image (r : Reg → Word) : Offsets 272 ((image frameSlot r Osmium.loadGp).map Prod.fst) := by
  rw [image, List.map_map]
  exact gp_slots

theorem gp_or_sp (x : Reg) : x = .sp ∨ x ∈ Osmium.loadGp := by
  cases x <;> decide

/-- Storing the registers of a machine whose `sp` has moved is storing those of
the interrupted one. -/
theorem image_moved (r : Reg → Word) (w : Word) :
    image frameSlot (Function.update r .sp w) Osmium.loadGp = image frameSlot r Osmium.loadGp := by
  simp [image, Osmium.loadGp]

/-- The doublewords of a frame, in the order in which `kernelvec` stores them. -/
def frameImage (r : Reg → Word) (c : Csr → Word) : List (Nat × Word) :=
  image frameSlot r Osmium.loadGp ++ [(frameSlot .sp, r .sp), (sepcSlot, c .sepc), (sstatusSlot, c .sstatus)]

theorem frameImage_slots (r : Reg → Word) (c : Csr → Word) : Offsets 272 ((frameImage r c).map Prod.fst) := by
  have hfst : (frameImage r c).map Prod.fst =
      Osmium.loadGp.map frameSlot ++ [frameSlot .sp, sepcSlot, sstatusSlot] := by
    simp [frameImage, image]
  rw [hfst]
  exact ⟨by decide, by decide, by decide⟩

theorem frameImage_reg (r : Reg → Word) (c : Csr → Word) (x : Reg) : (frameSlot x, r x) ∈ frameImage r c := by
  rcases gp_or_sp x with rfl | hx
  · exact List.mem_append_right _ List.mem_cons_self
  · exact List.mem_append_left _ (List.mem_map_of_mem hx)

/-- The registers of a machine, with where it goes on and how, lie at an address. -/
structure Saved (m : Mem) (a : Nat) (r : Reg → Word) (c : Csr → Word) : Prop where
  regs : ∀ x, load64 m (a + frameSlot x) = (r x).toNat
  sepc : load64 m (a + sepcSlot) = (c .sepc).toNat
  sstatus : load64 m (a + sstatusSlot) = (c .sstatus).toNat

namespace Saved

theorem frame (h : Saved m a r c) : frameAt m a = frameOf r c := by
  unfold frameAt frameOf
  simp only [h.regs, h.sepc, h.sstatus, BitVec.ofNat_toNat, BitVec.setWidth_eq]

/-- What lies there is all there is to know. -/
theorem unique {r' : Reg → Word} {c' : Csr → Word} (h : Saved m a r c) (h' : Saved m a r' c') :
    r' = r ∧ c' .sepc = c .sepc ∧ c' .sstatus = c .sstatus :=
  ⟨funext fun x => BitVec.eq_of_toNat_eq ((h'.regs x).symm.trans (h.regs x)),
    BitVec.eq_of_toNat_eq (h'.sepc.symm.trans h.sepc),
    BitVec.eq_of_toNat_eq (h'.sstatus.symm.trans h.sstatus)⟩

theorem congr {m' : Mem} (h : Saved m a r c) (hm : SameOn m m' a 264) : Saved m' a r c := by
  have hload : ∀ o, o + 8 ≤ 264 → load64 m' (a + o) = load64 m (a + o) :=
    fun o ho => load64_congr (hm.mono (by omega) (by omega))
  refine ⟨fun x => ?_, (hload _ (by decide)).trans h.sepc, (hload _ (by decide)).trans h.sstatus⟩
  have hx : frameSlot x + 8 ≤ 264 := by cases x <;> decide
  exact (hload _ hx).trans (h.regs x)

end Saved

/-- A stored frame reads back as the machine it was taken from. -/
theorem saved_stored (r : Reg → Word) (c : Csr → Word) (m : Mem) (a : Nat) :
    Saved (stored a (frameImage r c) m) a r c := by
  have hslots := frameImage_slots r c
  refine ⟨fun x => hslots.stored_load (frameImage_reg r c x) a m, ?_, ?_⟩
  · exact hslots.stored_load (p := (sepcSlot, c .sepc)) (by simp [frameImage]) a m
  · exact hslots.stored_load (p := (sstatusSlot, c .sstatus)) (by simp [frameImage]) a m

/-- At the call of `kerneltrap`, with the frame of the trapped machine below the
stack it came to and nothing else written. -/
structure Caught (r : Reg → Word) (c : Csr → Word) (m : Mem) (a : Nat) (M : Machine Reg Csr Label) : Prop where
  code : M.code = .call .kerneltrap :: trapRet
  sp : (M.regs .sp).toNat = a
  arg : M.regs .a0 = M.regs .sp
  scratch : M.csrs .sscratch = 0
  saved : Saved M.mem a r c
  kept : ∀ x, x < a ∨ a + 272 ≤ x → M.mem x = m x

/-- Where the frame goes: below the stack in `sscratch`, or below the interrupted
one if that is zero. -/
def trapTop (r : Reg → Word) (c : Csr → Word) : Word :=
  if c .sscratch = 0 then r .sp else c .sscratch

theorem toNat_below {w : Word} (h : w.toNat = a + 272) : (w + BitVec.ofInt 64 (-272)).toNat = a := by
  have hw := w.isLt
  rw [BitVec.toNat_add, show (BitVec.ofInt 64 (-272)).toNat = 2 ^ 64 - 272 from rfl]
  omega

theorem toNat_above {w : Word} (h : w.toNat = a) (hfit : a + 272 < 2 ^ 64) :
    (w + BitVec.ofInt 64 272).toNat = a + 272 := by
  rw [BitVec.toNat_add, show (BitVec.ofInt 64 272).toNat = 272 from rfl]
  omega

/-- Down a frame and up again. -/
theorem below_above (w : Word) : w + BitVec.ofInt 64 (-272) + BitVec.ofInt 64 272 = w := by
  rw [BitVec.add_assoc, show BitVec.ofInt 64 (-272) + BitVec.ofInt 64 272 = 0#64 from rfl, BitVec.add_zero]

/-- `SAVE_GP` and the two or three instructions behind it. -/
theorem fromUser_eq : fromUser = .addi .sp .sp (-272) :: (saves frameSlot .sp Osmium.loadGp ++
    (.csrr .t0 .sscratch :: .sd (some .t0) 8 .sp :: .csrw .sscratch none :: .label .saveCsrs :: saveCsrs)) := by
  rw [fromUser, saveGp_eq]
  simp only [List.cons_append, List.append_assoc, List.nil_append]

theorem kernelvec_eq : kernelvec = .csrrw .sp .sscratch .sp :: .bnez .sp .fromUser :: .label .fromKernel ::
    .csrrw .sp .sscratch .sp :: .addi .sp .sp (-272) :: (saves frameSlot .sp Osmium.loadGp ++
    (.addi .t0 .sp 272 :: .sd (some .t0) 8 .sp :: .j .saveCsrs :: .label .fromUser :: fromUser)) := by
  rw [kernelvec, saveGp_eq]
  simp only [List.cons_append, List.append_assoc, List.nil_append]

theorem after_fromUser (h : P.text = kernelvec) : P.after .fromUser = fromUser := by
  rw [Binary.after, h]
  rfl

theorem after_saveCsrs (h : P.text = kernelvec) : P.after .saveCsrs = saveCsrs := by
  rw [Binary.after, h]
  rfl

theorem after_restore (h : P.text = kernelvec) : P.after .restore = restore := by
  rw [Binary.after, h]
  rfl

/-- From `.Lsave_csrs` on, with the registers already in the frame. -/
theorem saveCsrs_steps (r₀ : Reg → Word) (hw : Window P m a 272) (hsp : (r .sp).toNat = a) (hc : c .sscratch = 0) :
    ∃ M, Steps P ⟨r, c, store64 (stored a (image frameSlot r₀ Osmium.loadGp) m) (a + 8) (r₀ .sp).toNat,
      saveCsrs⟩ M ∧ Caught r₀ c m a M := by
  have hw₁ := (hw.write fun x hx => (gp_slots_image r₀).stored_outside m hx).store
    (b := a + 8) (by omega) (by omega) (r₀ .sp).toNat
  have hw₂ := hw₁.store (b := a + 248) (by omega) (by omega) (c .sepc).toNat
  refine ⟨⟨?regs, c, stored a (frameImage r₀ c) m, .call .kerneltrap :: trapRet⟩, ?steps, ?caught⟩
  case steps =>
    apply Steps.csrr
    refine Steps.sd (hw₁.reach (by simpa using hsp) (by decide) (by decide) true) ?_
    apply Steps.csrr
    refine Steps.sd (hw₂.reach (by simpa using hsp) (by decide) (by decide) true) ?_
    apply Steps.mv
    rw [frameImage, stored_append]
    exact .refl
  case caught =>
    refine ⟨rfl, by simpa using hsp, by simp, hc, saved_stored r₀ c m a, ?_⟩
    exact fun x hx => (frameImage_slots r₀ c).stored_outside m hx

theorem fromUser_steps (hw : Window P m a 272) (hsp : (r .sp).toNat = a + 272) :
    ∃ M, Steps P ⟨r, c, m, fromUser⟩ M ∧
      Caught (Function.update r .sp (c .sscratch)) (Function.update c .sscratch 0) m a M := by
  have hw₁ := hw.write fun x hx => (gp_slots_image (Function.update r .sp (c .sscratch))).stored_outside m hx
  -- The registers from the moment `sp` has moved below the frame.
  obtain ⟨r₁, hr₁, hbase⟩ : ∃ r₁, r₁ = Function.update r .sp (r .sp + BitVec.ofInt 64 (-272)) ∧
      (r₁ .sp).toNat = a := ⟨_, rfl, by rw [Function.update_self]; exact toNat_below hsp⟩
  obtain ⟨M, hsteps, hcaught⟩ := saveCsrs_steps (Function.update r .sp (c .sscratch)) hw
    (r := Function.update r₁ .t0 (c .sscratch)) (c := Function.update c .sscratch 0)
    (by simpa using hbase) (by simp)
  refine ⟨M, ?_, hcaught⟩
  rw [fromUser_eq]
  apply Steps.addi
  rw [← hr₁]
  refine Steps.saves hw hbase gp_slots ?_
  rw [hr₁, image_moved, ← image_moved r (c .sscratch), ← hr₁]
  apply Steps.csrr
  refine Steps.sd (hw₁.reach (by simpa using hbase) (by decide) (by decide) true) ?_
  apply Steps.csrw
  apply Steps.label
  simp only [source, Option.elim, Function.update_self] at hsteps ⊢
  exact hsteps

theorem fromKernel_steps (ht : P.text = kernelvec) (hw : Window P m a 272) (hc : c .sscratch = 0)
    (hsp : (r .sp).toNat = a + 272) : ∃ M, Steps P ⟨r, c, m, .addi .sp .sp (-272) :: (saves frameSlot .sp Osmium.loadGp ++
      (.addi .t0 .sp 272 :: .sd (some .t0) 8 .sp :: .j .saveCsrs :: k))⟩ M ∧ Caught r c m a M := by
  have hw₁ := hw.write fun x hx => (gp_slots_image r).stored_outside m hx
  obtain ⟨r₁, hr₁, hbase⟩ : ∃ r₁, r₁ = Function.update r .sp (r .sp + BitVec.ofInt 64 (-272)) ∧
      (r₁ .sp).toNat = a := ⟨_, rfl, by rw [Function.update_self]; exact toNat_below hsp⟩
  have hback : r₁ .sp + BitVec.ofInt 64 272 = r .sp := by
    rw [hr₁, Function.update_self]
    exact below_above _
  obtain ⟨M, hsteps, hcaught⟩ := saveCsrs_steps r hw (r := Function.update r₁ .t0 (r .sp))
    (by simpa using hbase) hc
  refine ⟨M, ?_, hcaught⟩
  apply Steps.addi
  rw [← hr₁]
  refine Steps.saves hw hbase gp_slots ?_
  rw [hr₁, image_moved, ← hr₁]
  apply Steps.addi
  rw [hback]
  refine Steps.sd (hw₁.reach (by simpa using hbase) (by decide) (by decide) true) ?_
  apply Steps.j
  rw [after_saveCsrs ht]
  simp only [source, Option.elim, Function.update_self]
  exact hsteps

/-- The whole way in, from either mode: the frame of the trapped machine lies
below the stack it came to, and `sscratch` says S-mode. -/
theorem kernelvec_steps (ht : P.text = kernelvec) (hw : Window P m a 272) (htop : (trapTop r c).toNat = a + 272) :
    ∃ M, Steps P ⟨r, c, m, kernelvec⟩ M ∧ Caught r (Function.update c .sscratch 0) m a M := by
  have hswap : ∃ M, Steps P ⟨Function.update r .sp (c .sscratch), Function.update c .sscratch (r .sp), m,
      kernelvec.tail⟩ M ∧ Caught r (Function.update c .sscratch 0) m a M := by
    rw [kernelvec_eq, List.tail_cons]
    by_cases hc : c .sscratch = 0
    · have hsp : (r .sp).toNat = a + 272 := by
        rw [trapTop, if_pos hc] at htop
        exact htop
      obtain ⟨M, hsteps, hcaught⟩ := fromKernel_steps (k := .label .fromUser :: fromUser) ht hw
        (c := Function.update c .sscratch 0) (by simp) hsp
      refine ⟨M, ?_, hcaught⟩
      apply Steps.bnez
      rw [if_pos (by simpa using hc)]
      apply Steps.label
      apply Steps.csrrw
      simpa [hc] using hsteps
    · have hsp : (Function.update r .sp (c .sscratch) .sp).toNat = a + 272 := by
        rw [trapTop, if_neg hc] at htop
        simpa using htop
      obtain ⟨M, hsteps, hcaught⟩ := fromUser_steps (c := Function.update c .sscratch (r .sp)) hw hsp
      refine ⟨M, ?_, by simpa using hcaught⟩
      apply Steps.bnez
      rw [if_neg (by simpa using hc), after_fromUser ht]
      exact hsteps
  obtain ⟨M, hsteps, hcaught⟩ := hswap
  exact ⟨M, .csrrw hsteps, hcaught⟩

/-- At `sret`, with the frame back in the registers and nothing written. -/
structure Restored (c : Csr → Word) (m : Mem) (a : Nat) (M : Machine Reg Csr Label) : Prop where
  code : M.code = [.sret]
  saved : Saved m a M.regs M.csrs
  scratch : (M.csrs .sscratch).toNat = if (frameAt m a).sstatus.spp then (c .sscratch).toNat else a + 272
  kept : M.mem = m

theorem spp_bit (w : Word) : w &&& BitVec.ofNat 64 0x100 = 0 ↔ (statusOf w).spp = false := by
  rw [show BitVec.ofNat 64 0x100 = BitVec.twoPow 64 8 from rfl, BitVec.and_twoPow]
  unfold statusOf
  cases w.getLsbD 8
  · simp
  · exact iff_of_false (by decide) nofun

/-- All registers of a frame. -/
def frameWords (m : Mem) (a : Nat) (x : Reg) : Word := BitVec.ofNat 64 (load64 m (a + frameSlot x))

theorem saved_words (hsepc : c .sepc = BitVec.ofNat 64 (load64 m (a + sepcSlot)))
    (hstatus : c .sstatus = BitVec.ofNat 64 (load64 m (a + sstatusSlot))) : Saved m a (frameWords m a) c := by
  have hword : ∀ b, load64 m b = (BitVec.ofNat 64 (load64 m b)).toNat := by
    intro b
    rw [BitVec.toNat_ofNat, Nat.mod_eq_of_lt (load64_lt m b)]
  refine ⟨fun x => hword _, ?_, ?_⟩
  · rw [hsepc]
    exact hword _
  · rw [hstatus]
    exact hword _

theorem restore_steps (hw : Window P m a 272) (hsp : (r .sp).toNat = a) :
    Steps P ⟨r, c, m, restore⟩ ⟨frameWords m a, c, m, [.sret]⟩ := by
  rw [restore, loadGp_eq]
  exact Steps.loads_all hw hsp ⟨by decide, by decide, by decide⟩ (by decide) gp_or_sp .refl

/-- The branch on the saved `SPP`. -/
theorem rearm_steps (ht : P.text = kernelvec) (hw : Window P m a 272) (hsp : (r .sp).toNat = a)
    (hfit : a + 272 < 2 ^ 64) (hsepc : c .sepc = BitVec.ofNat 64 (load64 m (a + sepcSlot)))
    (hstatus : c .sstatus = BitVec.ofNat 64 (load64 m (a + sstatusSlot)))
    (hbit : r .t1 = c .sstatus &&& BitVec.ofNat 64 0x100) :
    ∃ M, Steps P ⟨r, c, m, .bnez .t1 .restore :: .addi .t0 .sp 272 :: .csrw .sscratch (some .t0) ::
      .label .restore :: restore⟩ M ∧ Restored c m a M := by
  have hspp : r .t1 = 0 ↔ (frameAt m a).sstatus.spp = false := by
    rw [hbit, hstatus]
    exact spp_bit _
  by_cases hz : r .t1 = 0
  · let top := r .sp + BitVec.ofInt 64 272
    refine ⟨⟨frameWords m a, Function.update c .sscratch top, m, [.sret]⟩, ?_, rfl, ?_, ?_, rfl⟩
    · apply Steps.bnez
      rw [if_pos hz]
      apply Steps.addi
      apply Steps.csrw
      apply Steps.label
      simp only [source, Option.elim, Function.update_self]
      exact restore_steps hw (by simpa using hsp)
    · exact saved_words (by simpa using hsepc) (by simpa using hstatus)
    · simp only [hspp.mp hz, Function.update_self]
      exact toNat_above hsp hfit
  · refine ⟨⟨frameWords m a, c, m, [.sret]⟩, ?_, rfl, saved_words hsepc hstatus, ?_, rfl⟩
    · apply Steps.bnez
      rw [if_neg hz, after_restore ht]
      exact restore_steps hw hsp
    · rw [if_pos (Bool.of_not_eq_false fun hclear => hz (hspp.mpr hclear))]

/-- The way out: back to U-mode with the stack re-armed, or back to S-mode. -/
theorem trapRet_steps (ht : P.text = kernelvec) (hw : Window P m a 272) (hsp : (r .sp).toNat = a)
    (hfit : a + 272 < 2 ^ 64) : ∃ M, Steps P ⟨r, c, m, trapRet⟩ M ∧ Restored c m a M := by
  let sepc := BitVec.ofNat 64 (load64 m (a + sepcSlot))
  let status := BitVec.ofNat 64 (load64 m (a + sstatusSlot))
  obtain ⟨M, hsteps, hrestored⟩ := rearm_steps ht hw
    (r := Function.update (Function.update (Function.update r .t0 sepc) .t1 status) .t1 (status &&& BitVec.ofNat 64 0x100))
    (c := Function.update (Function.update c .sepc sepc) .sstatus status) (by simpa using hsp) hfit
    (by simp [sepc]) (by simp [status]) (by simp [status])
  refine ⟨M, ?_, ?_⟩
  · refine Steps.ld (hw.reach hsp (by decide) (by decide) false) ?_
    apply Steps.csrw
    refine Steps.ld (hw.reach (by simpa using hsp) (by decide) (by decide) false) ?_
    apply Steps.csrw
    apply Steps.andi
    simpa [source, sepc, status] using hsteps
  · exact ⟨hrestored.code, hrestored.saved, hrestored.scratch, hrestored.kept⟩

theorem userret_eq : userret = .csrw .sscratch (some .a1) :: .ld .t0 248 .a0 :: .csrw .sepc (some .t0) ::
    .ld .t0 256 .a0 :: .csrw .sstatus (some .t0) :: (loads frameSlot .a0 userretLoads.dropLast ++
      [.ld .a0 (frameSlot .a0) .a0, .sret]) := rfl

/-- The way into a fork's child: all of the frame, and the stack for the next trap. -/
theorem userret_steps (hw : Window P m a 264) (ha : (r .a0).toNat = a) :
    ∃ M, Steps P ⟨r, c, m, userret⟩ M ∧ M.code = [.sret] ∧ Saved m a M.regs M.csrs ∧
      M.csrs .sscratch = r .a1 ∧ M.mem = m := by
  let sepc := BitVec.ofNat 64 (load64 m (a + sepcSlot))
  let status := BitVec.ofNat 64 (load64 m (a + sstatusSlot))
  let c₁ := Function.update (Function.update (Function.update c .sscratch (r .a1)) .sepc sepc) .sstatus status
  refine ⟨⟨frameWords m a, c₁, m, [.sret]⟩, ?_, rfl, ?_, by simp [c₁], rfl⟩
  · rw [userret_eq]
    apply Steps.csrw
    refine Steps.ld (hw.reach ha (by decide) (by decide) false) ?_
    apply Steps.csrw
    refine Steps.ld (hw.reach (by simpa using ha) (by decide) (by decide) false) ?_
    apply Steps.csrw
    simp only [source, Option.elim, Function.update_self, Function.update_idem]
    refine Steps.loads_all hw (by simpa using ha) ⟨by decide, by decide, by decide⟩ (by decide) ?_ .refl
    intro x
    cases x <;> decide
  · exact saved_words (by simp [c₁, sepc]) (by simp [c₁, status])

end Osmium.Asm
