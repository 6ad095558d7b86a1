import Osmium.Proofs.KernelView
import Osmium.Proofs.Transparency
import Osmium.Proofs.UserFrames
import Osmium.Proofs.Vector

namespace Osmium
open Lib Vm Control Rv64

variable {T : Type} {E : Env} {pool : PagePool E.allocStart} {s s' : Sys T}

/-- The kernel's data, statics and heap can be read and written. -/
theorem kernelAccess_data (hl : E.dataStart ≤ v) (hu : v < E.allocStart) (hacc : acc = .load ∨ acc = .store) :
    kernelAccess E v acc = some v := by
  have hmem : ∃ x ∈ kernelSections E.toLayout, x.start ≤ v ∧ v < x.stop ∧ x.perm = pteR ||| pteW := by
    have hrange := E.allocStart_range
    have hphys : physTop = 0x88000000 := by decide
    by_cases hv : v < E.kernelEnd
    · exact ⟨⟨E.dataStart, E.kernelEnd, _⟩, by simp [kernelSections], hl, hv, rfl⟩
    · exact ⟨⟨E.kernelEnd, physTop, _⟩, by simp [kernelSections], Nat.le_of_not_lt hv, by dsimp only; omega, rfl⟩
  obtain ⟨x, hx, h1, h2, hperm⟩ := hmem
  have hrights : rightsOf (kernelSections E.toLayout) v = some (pteR ||| pteW) := by
    rw [rightsOf_mem (kernelSections_apart _) hx h1 h2, hperm]
  unfold kernelAccess
  rw [hrights]
  rcases hacc with rfl | rfl <;> rfl

/-- The machine's memory is the model's, but for the kernel's data and heap, where
the model has records instead of bytes. -/
def Agrees (E : Env) (s : Sys T) (m : Mem) : Prop :=
  ∀ x, x < E.dataStart ∨ E.allocStart ≤ x → m x = s.phys.mem x

/-- What a process has on the heap. -/
theorem Sane.block_bounds (h : Sane E pool lost s) (hp : s.proc j = some p)
    (ha : a ∈ Asset.blocks E (.proc p.toProcData)) : E.heapStart ≤ a.ptr ∧ a.ptr + a.size ≤ E.allocStart := by
  have hlive : a ∈ (lost.map Asset.block ++ stock E s).flatMap (Asset.blocks E) :=
    List.mem_flatMap.mpr ⟨_, List.mem_append_right _ (Sane.in_stock hp), ha⟩
  have hb := h.ledger.owns.heap.bounds (List.mem_append_left _ hlive)
  unfold Layout.allocStart
  omega

theorem Sane.stack_bounds (h : Sane E pool lost s) (hp : s.proc j = some p) :
    E.heapStart ≤ p.kstack ∧ p.kstack + kstackSize ≤ E.allocStart :=
  h.block_bounds hp (a := ⟨p.kstack, kstackSize⟩) List.mem_cons_self

theorem Sane.frame_bounds (h : Sane E pool lost s) (hp : s.proc j = some p) (hf : p.forkFrame = some (b, f)) :
    E.heapStart ≤ b ∧ b + 264 ≤ E.allocStart :=
  h.block_bounds hp (a := ⟨b, 264⟩) (by simp [Asset.blocks, hf])

/-- Writes to the kernel's data. -/
theorem Agrees.write {m m' : Mem} (hm : Agrees E s m) (hl : E.dataStart ≤ a) (hu : a + n ≤ E.allocStart)
    (hw : ∀ x, x < a ∨ a + n ≤ x → m' x = m x) : Agrees E s m' :=
  fun x hx => (hw x (by omega)).trans (hm x hx)

theorem Agrees.congr {m : Mem} (hm : Agrees E s m) (hphys : s'.phys = s.phys) : Agrees E s' m := by
  unfold Agrees
  rw [hphys]
  exact hm

/-- Data accesses of S-mode, with `SUM` clear. -/
def Asm.supervisor (satp : Nat) (m : Mem) (write : Bool) (va : Nat) : Option Nat :=
  Sv39.access m satp va (if write then .store else .load) .supervisor false

/-- The kernel's own memory is where it seems to be, whatever is written there. -/
theorem supervisor_window (h : Reachable E reserved s) (hm : Agrees E s m)
    (hP : P.mmu = Asm.supervisor s.hart.satp) (ha : a % 8 = 0) (hl : E.dataStart ≤ a) (hu : a + n ≤ E.allocStart) :
    Window (R := R) (C := C) (L := L) P m a n := by
  obtain ⟨res, lost, _, hs⟩ := reachable_sane h
  have hrange := E.allocStart_range
  refine ⟨ha, by omega, fun m' hm' write va h1 h2 => ?_⟩
  have habove : ∀ x, E.allocStart ≤ x → m' x = s.phys.mem x :=
    fun x hx => (hm' x (by omega)).trans (hm x (.inr hx))
  have hva : va < vaMax := by
    have : vaMax = 0x4000000000 := by decide
    omega
  have hslot : vpn va 2 ≠ userL2Index := by
    have hdata := E.data
    have hplace : 0x80200000 ≤ E.dataStart := by
      have := E.base
      have := E.text
      have := E.user
      have := E.rodata
      omega
    rw [vpn_two, show userL2Index = 1 from rfl]
    omega
  rw [hP]
  unfold Asm.supervisor
  rw [((reachable_mirrors h).access hs hs.satp_live habove hva hslot _ false).1]
  apply kernelAccess_data (by omega) (by omega)
  cases write
  · exact .inl rfl
  · exact .inr rfl

namespace Asm

/-- A machine on the way to or from the U-mode of `s`: the program's registers,
where it goes on, and the stack for its next trap. -/
structure Stands (E : Env) (s : Sys T) (M : Machine Reg Csr Label) : Prop where
  frame : frameOf M.regs M.csrs = Trap.frameOf s.hart
  scratch : (M.csrs .sscratch).toNat = s.hart.sscratch
  mem : Agrees E s M.mem

/-- A machine in the handler, with a program's frame on the stack of `s`. -/
structure Handling (E : Env) (s : Sys T) (f : TrapFrame) (M : Machine Reg Csr Label) : Prop where
  stack : s.hart.stack = .kernel ((M.regs .sp).toNat + 272)
  frame : frameAt M.mem (M.regs .sp).toNat = f
  scratch : (M.csrs .sscratch).toNat = s.hart.sscratch
  mem : Agrees E s M.mem

end Asm

/-- `n` bytes at the top of a process's kernel stack. -/
structure StackTop (E : Env) (p : ProcData) (a n : Nat) : Prop where
  top : p.kstackTop = a + n
  aligned : a % 8 = 0
  inside : p.kstack ≤ a ∧ a + n ≤ p.kstack + kstackSize
  data : E.dataStart ≤ a ∧ a + n ≤ E.allocStart

/-- The frame of a trap from U-mode has room on its process's own kernel stack. -/
theorem Reachable.frame_room (h : Reachable E reserved s) (hp : s.proc j = some p) :
    StackTop E p.toProcData (p.kstackTop - 272) 272 := by
  obtain ⟨res, lost, _, hs⟩ := reachable_sane h
  have hb := hs.stack_bounds hp
  have htop : p.kstackTop = (p.kstack + 16384) / 16 * 16 := (hs.sound hp).top
  have hdata : E.dataStart < E.heapStart := E.data.2
  have hsize : kstackSize = 16384 := rfl
  exact ⟨by omega, by omega, ⟨by omega, by omega⟩, by omega, by omega⟩

theorem StackTop.window (hroom : StackTop E p a n) (h : Reachable E reserved s) (hm : Agrees E s m)
    (hP : P.mmu = Asm.supervisor s.hart.satp) : Window (R := R) (C := C) (L := L) P m a n :=
  supervisor_window h hm hP hroom.aligned hroom.data.1 hroom.data.2

/-- Leaving U-mode is trapping. -/
theorem Step.leaves_user (move : Step E s s') (h : Holds S lvl top s) (hstack : s.hart.stack = .user)
    (hout : s'.hart.stack ≠ .user) : ∃ c, s' = Trap.fromUser s c := by
  have hcode := (h.on_user hstack).2
  cases move with
  | exec junk code run =>
    obtain ⟨rfl, rfl⟩ := List.cons.inj (hcode.symm.trans code)
    obtain rfl := Except.ok.inj run
    exact absurd hstack hout
  | userInterrupt irq code => exact ⟨_, rfl⟩
  | userTrap cause stval word code fetched => exact ⟨_, rfl⟩
  | interrupt irq on kernel => exact absurd hstack kernel
  | _ => exact absurd hstack hout

/-- The way in refines every trap from U-mode. -/
theorem kernelvec_enters (h : Reachable E reserved s) (hstack : s.hart.stack = .user) (move : Step E s s')
    (hout : s'.hart.stack ≠ .user) (ht : P.text = Asm.kernelvec) (hP : P.mmu = Asm.supervisor s.hart.satp)
    (hM : Asm.Stands E s M) (hcode : M.code = Asm.kernelvec) :
    ∃ M' j p a, Steps P M M' ∧ M'.code = .call .kerneltrap :: Asm.trapRet ∧ M'.regs .a0 = M'.regs .sp ∧
      Asm.Handling E s' (Trap.frameOf s.hart) M' ∧ s.currentProc = some (j, p) ∧
      StackTop E p.toProcData a 272 ∧ ∀ x, x < a ∨ a + 272 ≤ x → M'.mem x = M.mem x := by
  obtain ⟨S, lvl, top, hh⟩ := h.controlled
  obtain ⟨c, rfl⟩ := move.leaves_user hh hstack hout
  obtain ⟨j, p, hcur, hp, _, harmed⟩ := hh.armed hstack
  have hroom := h.frame_room hp
  obtain ⟨r, c', m, code⟩ := M
  obtain rfl : code = Asm.kernelvec := hcode
  have htop : (Asm.trapTop r c').toNat = p.kstackTop - 272 + 272 := by
    have hscratch : (c' .sscratch).toNat = p.kstackTop := hM.scratch.trans harmed
    have hne : c' .sscratch ≠ 0 := by
      intro hz
      have hpos := hroom.top
      rw [hz] at hscratch
      have : (0 : Word).toNat = 0 := rfl
      omega
    rw [Asm.trapTop, if_neg hne, hscratch]
    exact hroom.top
  obtain ⟨M', hsteps, hcaught⟩ := Asm.kernelvec_steps ht (hroom.window h hM.mem hP) htop
  refine ⟨M', j, p, _, hsteps, hcaught.code, hcaught.arg, ⟨?_, ?_, ?_, ?_⟩, Sys.currentProc_some hcur hp,
    hroom, hcaught.kept⟩
  · rw [hcaught.sp, ← hroom.top, ← harmed]
    rfl
  · rw [hcaught.sp, hcaught.saved.frame]
    exact hM.frame
  · rw [hcaught.scratch]
    rfl
  · exact (hM.mem.write hroom.data.1 hroom.data.2 hcaught.kept).congr rfl

/-- The frame with which a piece of code goes back to U-mode by `kernelvec`. -/
def Instr.resumes : Instr T → Option TrapFrame
  | .trapRet f => some f
  | .sysRet f n => some (f.setA0 n)
  | _ => none

/-- Such a piece does what the frame says, on a frame of U-mode. -/
theorem resumes_ret (h : Reachable E reserved s) (hcode : s.hart.code = i :: k) (hf : i.resumes = some f)
    (move : Step E s s') :
    s' = Trap.ret s f ∧ f.FromUser ∧ ∃ j p, s.proc j = some p ∧ s.hart.stack = .kernel p.kstackTop := by
  obtain ⟨S, lvl, top, hh⟩ := h.controlled
  have hframed := (reachable_unprivileged h).code.hart
  rw [hcode] at hframed
  have hi := (framed_cons.mp hframed).1
  have hplace : S = .thread → ∃ j p, s.proc j = some p ∧ s.hart.stack = .kernel p.kstackTop := by
    rintro rfl
    obtain ⟨j, p, hat, _, ⟨rfl, hstack, _⟩, _⟩ := hh.place
    exact ⟨j, p, hat.here, hstack⟩
  cases i with
  | trapRet g =>
    obtain rfl := Option.some.inj hf
    obtain ⟨rfl, rfl, rfl⟩ := hh.leads hcode
    obtain ⟨junk, run⟩ := move.quiet hcode hh.reads.2 rfl
    exact ⟨(Except.ok.inj run).symm, hi, hplace rfl⟩
  | sysRet g n =>
    obtain rfl := Option.some.inj hf
    obtain ⟨rfl, rfl, rfl⟩ := hh.leads hcode
    obtain ⟨junk, run⟩ := move.quiet hcode hh.reads.2 rfl
    exact ⟨(Except.ok.inj run).symm, hi, hplace rfl⟩
  | _ => cases hf

theorem frameOf_ret (hf : f.FromUser) (s : Sys T) : Trap.frameOf (Trap.ret s f).hart = f := by
  obtain ⟨regs, sepc, status⟩ := f
  obtain rfl : status = _ := hf
  unfold Trap.frameOf Trap.ret
  rw [(restore_all _ _).1]

/-- The way out refines every return to U-mode from a trap. -/
theorem kernelvec_returns (h : Reachable E reserved s) (hcode : s.hart.code = i :: k)
    (hf : i.resumes = some f) (move : Step E s s')
    (ht : P.text = Asm.kernelvec) (hP : P.mmu = Asm.supervisor s.hart.satp) (hM : Asm.Handling E s f M)
    (hat : M.code = Asm.trapRet) :
    ∃ M', Steps P M M' ∧ M'.code = [.sret] ∧ Asm.Stands E s' M' ∧ M'.mem = M.mem := by
  obtain ⟨rfl, hframe, j, p, hp, hstack⟩ := resumes_ret h hcode hf move
  have hroom := h.frame_room hp
  obtain ⟨r, c, m, code⟩ := M
  obtain rfl : code = Asm.trapRet := hat
  have htop : p.kstackTop = (r .sp).toNat + 272 := Stack.kernel.inj (hstack.symm.trans hM.stack)
  rw [htop, Nat.add_sub_cancel] at hroom
  have hlimit : (r .sp).toNat + 272 < 2 ^ 64 := by
    have hrange := E.allocStart_range
    have hdata := hroom.data
    omega
  obtain ⟨M', hsteps, hback⟩ := Asm.trapRet_steps ht (hroom.window h hM.mem hP) rfl hlimit
  have hat : Asm.frameAt m (r .sp).toNat = f := hM.frame
  refine ⟨M', hsteps, hback.code, ⟨?_, ?_, ?_⟩, hback.kept⟩
  · rw [frameOf_ret hframe, ← hback.saved.frame]
    exact hat
  · have hclear : f.sstatus.spp = false := congrArg Sstatus.spp hframe
    rw [hback.scratch, hat, hclear]
    simp [Trap.ret, hstack, htop]
  · rw [hback.kept]
    exact hM.mem.congr rfl

theorem frameOf_userret (hf : f.FromUser) (h : Hart T) (top : Nat) : Trap.frameOf (Proc.userret h f top) = f := by
  obtain ⟨regs, sepc, status⟩ := f
  obtain rfl : status = _ := hf
  unfold Trap.frameOf Proc.userret
  rw [(restore_all _ _).2]

/-- `userret` refines the first entry of a fork's child, from the frame in its box. -/
theorem userret_enters (h : Reachable E reserved s) (hcode : s.hart.code = .userret f top :: k)
    (move : Step E s s') (hcur : s.currentProc = some (j, p)) (hbox : p.forkFrame = some (b, g))
    (hP : P.mmu = Asm.supervisor s.hart.satp) (hm : Agrees E s M.mem) (hat : M.code = Asm.userret)
    (hframe : (M.regs .a0).toNat = b ∧ Asm.frameAt M.mem b = g) (htop : (M.regs .a1).toNat = top) :
    ∃ M', Steps P M M' ∧ M'.code = [.sret] ∧ Asm.Stands E s' M' ∧ M'.mem = M.mem := by
  obtain ⟨S, lvl, top', hh⟩ := h.controlled
  obtain ⟨res, lost, _, hs⟩ := reachable_sane h
  have hp := (Sys.currentProc_eq hcur).2
  obtain ⟨halign, hfrom⟩ := ((reachable_unprivileged h).forks j p hp).frame b g hbox
  obtain ⟨rfl, rfl, rfl, rfl⟩ := hh.leads hcode
  obtain ⟨j', p', hcur', htop', b', hbox'⟩ := front_suits h hh hcode
  obtain ⟨rfl, rfl⟩ := Prod.mk.inj (Option.some.inj (hcur.symm.trans hcur'))
  obtain ⟨rfl, rfl⟩ := Prod.mk.inj (Option.some.inj (hbox.symm.trans hbox'))
  obtain ⟨junk, run⟩ := move.quiet hcode hh.reads.2 rfl
  obtain rfl := Except.ok.inj run
  obtain ⟨hlow, hhigh⟩ := hs.frame_bounds hp hbox
  have hdata : E.dataStart < E.heapStart := E.data.2
  have hw : Window P M.mem b 264 := supervisor_window h hm hP halign (by omega) hhigh
  obtain ⟨r, c, m, code⟩ := M
  obtain rfl : code = Asm.userret := hat
  obtain ⟨M', hsteps, hcode', hframe', hscratch', hmem'⟩ := Asm.userret_steps (c := c) hw hframe.1
  refine ⟨M', hsteps, hcode', ⟨?_, ?_, ?_⟩, hmem'⟩
  · rw [← hframe'.frame, hframe.2, frameOf_userret hfrom]
  · rw [hscratch']
    exact htop
  · rw [hmem']
    exact hm.congr rfl

/-- Every crossing between U-mode and the kernel that is written in assembly does
on the machine what the model's step does: the trap, the return from it, and the
first entry of a forked child. -/
theorem crossings_refined (h : Reachable E reserved s) (move : Step E s s')
    (hP : P.text = Asm.kernelvec ∧ P.mmu = Asm.supervisor s.hart.satp) :
    (∀ M, s.hart.stack = .user → s'.hart.stack ≠ .user → Asm.Stands E s M → M.code = Asm.kernelvec →
      ∃ M' j p a, Steps P M M' ∧ M'.code = .call .kerneltrap :: Asm.trapRet ∧ M'.regs .a0 = M'.regs .sp ∧
        Asm.Handling E s' (Trap.frameOf s.hart) M' ∧ s.currentProc = some (j, p) ∧
        StackTop E p.toProcData a 272 ∧ ∀ x, x < a ∨ a + 272 ≤ x → M'.mem x = M.mem x) ∧
    (∀ M i k f, s.hart.code = i :: k → i.resumes = some f → Asm.Handling E s f M → M.code = Asm.trapRet →
      ∃ M', Steps P M M' ∧ M'.code = [.sret] ∧ Asm.Stands E s' M' ∧ M'.mem = M.mem) ∧
    ∀ M f top k j p b g, s.hart.code = .userret f top :: k → s.currentProc = some (j, p) →
      p.forkFrame = some (b, g) → Agrees E s M.mem → M.code = Asm.userret →
      (M.regs .a0).toNat = b ∧ Asm.frameAt M.mem b = g → (M.regs .a1).toNat = top →
      ∃ M', Steps P M M' ∧ M'.code = [.sret] ∧ Asm.Stands E s' M' ∧ M'.mem = M.mem :=
  ⟨fun _ hstack hout hM hcode => kernelvec_enters h hstack move hout hP.1 hP.2 hM hcode,
    fun _ _ _ _ hcode hf hM hat => kernelvec_returns h hcode hf move hP.1 hP.2 hM hat,
    fun _ _ _ _ _ _ _ _ hcode hcur hbox hm hat hframe htop =>
      userret_enters h hcode move hcur hbox hP.2 hm hat hframe htop⟩

/-- A machine that has trapped from the U-mode of a hart. -/
def Asm.machineOf (h : Hart T) (m : Mem) : Machine Reg Csr Label where
  regs x := BitVec.ofNat 64 (h.regs x)
  csrs
    | .sscratch => BitVec.ofNat 64 h.sscratch
    | .sepc => BitVec.ofNat 64 h.pc
    | .sstatus => if h.sie then 0x20 else 0
  mem := m
  code := kernelvec

theorem Asm.machineOf_stands (hregs : ∀ x, s.hart.regs x < 2 ^ 64) (hpc : s.hart.pc < 2 ^ 64)
    (hscratch : s.hart.sscratch < 2 ^ 64) : Stands E s (machineOf s.hart s.phys.mem) := by
  refine ⟨?_, ?_, fun _ _ => rfl⟩
  · have hstatus : statusOf (if s.hart.sie then 0x20 else 0) = { spp := false, spie := s.hart.sie } := by
      cases s.hart.sie <;> rfl
    unfold frameOf machineOf Trap.frameOf
    simp only [hstatus, BitVec.toNat_ofNat, Nat.mod_eq_of_lt hpc]
    congr 1
    funext x
    exact Nat.mod_eq_of_lt (hregs x)
  · exact (BitVec.toNat_ofNat _ _).trans (Nat.mod_eq_of_lt hscratch)

/-- A program's interrupt and the way back, on a machine. -/
theorem crossings_refined_lone : ∃ (s s₁ s₂ : Sys Nat) (P : Binary Reg Asm.Csr Asm.Label)
    (M M₁ M₂ : Machine Reg Asm.Csr Asm.Label),
    Reachable smallEnv none s ∧ Step smallEnv s s₁ ∧ Step smallEnv s₁ s₂ ∧
    M.code = Asm.kernelvec ∧ Asm.Stands smallEnv s M ∧ Steps P M M₁ ∧
    M₁.code = .call .kerneltrap :: Asm.trapRet ∧ Steps P { M₁ with code := Asm.trapRet } M₂ ∧
    M₂.code = [.sret] ∧ Asm.Stands smallEnv s₂ M₂ := by
  obtain ⟨s, d, h⟩ := lone Nat
  have hstack : s.hart.stack = .user := by
    rw [h.hart]
    rfl
  have hcode : s.hart.code = [.umode] := by
    rw [h.hart]
    rfl
  have hregs : ∀ x, s.hart.regs x < 2 ^ 64 := by
    rw [h.hart]
    intro x
    simp only [Proc.entered, Regs.set]
    split <;> decide
  have hpc : s.hart.pc < 2 ^ 64 := by
    rw [h.hart]
    exact (by decide : userText < 2 ^ 64)
  have hscratch : s.hart.sscratch < 2 ^ 64 := by
    obtain ⟨t, hin⟩ := h.inside
    have hroom := h.reachable.frame_room (Sys.currentProc_eq hin.caller).2
    have hrange := smallEnv.allocStart_range
    have hdata := hroom.data.2
    rw [h.hart]
    calc d.kstackTop = d.kstackTop - 272 + 272 := hroom.top
      _ ≤ smallEnv.allocStart := hdata
      _ < 2 ^ 64 := by omega
  let P : Binary Reg Asm.Csr Asm.Label := ⟨Asm.kernelvec, fun _ => 0, Asm.supervisor s.hart.satp⟩
  have hM : Asm.Stands smallEnv s (Asm.machineOf s.hart s.phys.mem) := Asm.machineOf_stands hregs hpc hscratch
  have hirq : Step smallEnv s _ := .userInterrupt (.uart []) hcode
  have hback : Step smallEnv _ _ := .exec (fun _ => 0) rfl (rfl : exec smallEnv (fun _ => 0)
    (Trap.fromUser s [.trapRet (Trap.frameOf s.hart)]) (.trapRet (Trap.frameOf s.hart)) [] = _)
  obtain ⟨M₁, j, p, a, hin, hat, _, hhandling, _⟩ := (crossings_refined (P := P) h.reachable hirq ⟨rfl, rfl⟩).1 _
    hstack (fun hc => by cases hc) hM rfl
  obtain ⟨M₂, hout, hsret, hstands, _⟩ := (crossings_refined (P := P) (h.reachable.step hirq) hback ⟨rfl, rfl⟩).2.1
    { M₁ with code := Asm.trapRet } _ _ _ rfl rfl
    ⟨hhandling.stack, hhandling.frame, hhandling.scratch, hhandling.mem⟩ rfl
  exact ⟨s, _, _, P, _, M₁, M₂, h.reachable, hirq, hback, rfl, hM, hin, hat, hout, hsret, hstands⟩

/-- Between an interrupt of S-mode code and the return to it lies whatever the
handler did, with whichever threads it switched to; all of the interrupted
machine comes back, provided its frame and `sp` do. -/
theorem kernelvec_nested (h : Reachable E reserved s) (hstack : s.hart.stack ≠ .user)
    (ht : P.text = Asm.kernelvec) (hP : P.mmu = Asm.supervisor s.hart.satp) (hm : Agrees E s M.mem)
    (hat : M.code = Asm.kernelvec) (hscratch : (M.csrs .sscratch).toNat = s.hart.sscratch)
    (hspp : (Asm.statusOf (M.csrs .sstatus)).spp = true) (hsp : (M.regs .sp).toNat % 8 = 0)
    (hroom : E.dataStart + 272 ≤ (M.regs .sp).toNat ∧ (M.regs .sp).toNat ≤ E.allocStart) :
    ∃ M', Steps P M M' ∧ M'.code = .call .kerneltrap :: Asm.trapRet ∧ M'.regs .a0 = M'.regs .sp ∧
      M'.csrs .sscratch = 0 ∧ Asm.frameAt M'.mem (M'.regs .a0).toNat = Asm.frameOf M.regs M.csrs ∧
      (∀ x, x < (M.regs .sp).toNat - 272 ∨ (M.regs .sp).toNat ≤ x → M'.mem x = M.mem x) ∧
      ∀ (s₁ : Sys T) Q N, Reachable E reserved s₁ → s₁.hart.stack ≠ .user → Q.text = Asm.kernelvec →
        Q.mmu = Asm.supervisor s₁.hart.satp → Agrees E s₁ N.mem → N.code = Asm.trapRet →
        (N.csrs .sscratch).toNat = s₁.hart.sscratch → N.regs .sp = M'.regs .sp →
        SameOn M'.mem N.mem (M'.regs .sp).toNat 264 →
        ∃ N', Steps Q N N' ∧ N'.code = [.sret] ∧ N'.regs = M.regs ∧ N'.csrs .sepc = M.csrs .sepc ∧
          N'.csrs .sstatus = M.csrs .sstatus ∧ N'.csrs .sscratch = 0 ∧ N'.mem = N.mem := by
  obtain ⟨S, lvl, top, hh⟩ := h.controlled
  obtain ⟨hlow, hhigh⟩ := hroom
  obtain ⟨r, c, m, code⟩ := M
  obtain rfl : code = Asm.kernelvec := hat
  have hzero : c .sscratch = 0 := BitVec.eq_of_toNat_eq (hscratch.trans (hh.unarmed hstack))
  dsimp only at hsp hlow hhigh hspp hm ⊢
  have hw : Window P m ((r .sp).toNat - 272) 272 := supervisor_window h hm hP (by omega) (by omega) (by omega)
  have htop : (Asm.trapTop r c).toNat = (r .sp).toNat - 272 + 272 := by
    rw [Asm.trapTop, if_pos hzero]
    omega
  obtain ⟨M', hsteps, hcaught⟩ := Asm.kernelvec_steps ht hw htop
  rw [show Function.update c .sscratch 0 = c from by rw [← hzero, Function.update_eq_self]] at hcaught
  refine ⟨M', hsteps, hcaught.code, hcaught.arg, hcaught.scratch, ?_, fun x hx => hcaught.kept x (by omega), ?_⟩
  · rw [hcaught.arg, hcaught.sp]
    exact hcaught.saved.frame
  · intro s₁ Q N h₁ hstack₁ hQt hQ hN hNat hNscratch hNsp hsame
    obtain ⟨S₁, lvl₁, top₁, hh₁⟩ := h₁.controlled
    obtain ⟨r₁, c₁, m₁, code₁⟩ := N
    obtain rfl : code₁ = Asm.trapRet := hNat
    have hzero₁ : c₁ .sscratch = 0 := BitVec.eq_of_toNat_eq (hNscratch.trans (hh₁.unarmed hstack₁))
    rw [hcaught.sp] at hsame
    have hsaved := hcaught.saved.congr hsame
    have hw₁ : Window Q m₁ ((r .sp).toNat - 272) 272 := supervisor_window h₁ hN hQ (by omega) (by omega) (by omega)
    have hrange := E.allocStart_range
    obtain ⟨N', hback, hrestored⟩ := Asm.trapRet_steps (c := c₁) hQt hw₁ ((congrArg BitVec.toNat hNsp).trans hcaught.sp)
      (by omega)
    obtain ⟨hregs, hsepc, hstatus⟩ := hsaved.unique hrestored.saved
    refine ⟨N', hback, hrestored.code, hregs, hsepc, hstatus, ?_, hrestored.kept⟩
    have hspp₁ : (Asm.frameAt m₁ ((r .sp).toNat - 272)).sstatus.spp = true := by
      rw [hsaved.frame]
      exact hspp
    apply BitVec.eq_of_toNat_eq
    rw [hrestored.scratch, if_pos hspp₁, hzero₁]

/-- An interrupt of the boot code. -/
theorem kernelvec_nested_boot : ∃ (s : Sys Nat) (P : Binary Reg Asm.Csr Asm.Label)
    (M M' N : Machine Reg Asm.Csr Asm.Label), Reachable smallEnv none s ∧ M.code = Asm.kernelvec ∧
    Steps P M M' ∧ M'.code = .call .kerneltrap :: Asm.trapRet ∧
    Steps P { M' with code := Asm.trapRet } N ∧ N.code = [.sret] ∧ N.regs = M.regs := by
  obtain ⟨s, run, hw, _⟩ := kmain_total (T := Nat) smallEnv (show Kalloc.reservedRange none = .ok (0, 0) from rfl)
    (by rw [smallEnv_seeds]; decide) (fun _ => 0) (fun _ => 0)
  have hr : Reachable smallEnv none s := .boot _ _ run
  have hstack : s.hart.stack ≠ .user := by
    rw [hw.stack]
    exact nofun
  let P : Binary Reg Asm.Csr Asm.Label := ⟨Asm.kernelvec, fun _ => 0, Asm.supervisor s.hart.satp⟩
  let top : Word := BitVec.ofNat 64 (smallEnv.dataStart + 272)
  let M : Machine Reg Asm.Csr Asm.Label :=
    ⟨fun _ => top, fun | .sstatus => 0x100 | _ => 0, s.phys.mem, Asm.kernelvec⟩
  have htop : top.toNat = smallEnv.dataStart + 272 := by decide
  have hspp : (Asm.statusOf 0x100).spp = true := by decide
  have hfits : top.toNat % 8 = 0 ∧ top.toNat ≤ smallEnv.allocStart := by
    rw [htop]
    decide
  obtain ⟨M', hin, hcode, _, hzero, _, hkept, hback⟩ := kernelvec_nested (P := P) (M := M) hr hstack rfl rfl
    (fun _ _ => rfl) rfl hw.scratch.symm hspp hfits.1 ⟨htop.ge, hfits.2⟩
  have hm : Agrees smallEnv s M'.mem := by
    intro x hx
    apply hkept
    change x < top.toNat - 272 ∨ top.toNat ≤ x
    omega
  have hscratch : (M'.csrs .sscratch).toNat = s.hart.sscratch := by
    rw [hzero, hw.scratch]
    rfl
  obtain ⟨N, hout, hsret, hregs, _⟩ := hback s P { M' with code := Asm.trapRet } hr hstack rfl rfl hm rfl
    hscratch rfl (.refl _ _ _)
  exact ⟨s, P, M, M', N, hr, rfl, hin, hcode, hout, hsret, hregs⟩

end Osmium
