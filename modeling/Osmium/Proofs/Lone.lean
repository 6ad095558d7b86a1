import Osmium.Proofs.Thread
import Osmium.Proofs.UserMode

namespace Osmium
open Lib Vm Control Syscall

variable {T : Type} {s s' : Sys T}

/-- A single process, in its program. -/
structure Lone (s : Sys T) (d : ProcData) : Prop where
  reachable : Reachable smallEnv none s
  spawned : Spawned .forker d
  procs : s.procs = [some (Proc.seated d)]
  current : s.current = some 0
  next : s.nextSlot = 1
  sched : s.schedulerCtx = ⟨Proc.afterSwitch s, .boot⟩
  ticks : s.ticks = 0
  hart : s.hart = Proc.entered d
  space : d.pageTable ≠ 0
  kernel : s.kernelRoot ≠ 0

theorem lone (T : Type) : ∃ (s : Sys T) (d : ProcData), Lone s d := by
  obtain ⟨s, hr, _, hticks, hstart⟩ := prepared T (fun _ => 0)
  obtain ⟨s₁, d, hsteps₁, hd, _, _, _, hticks₁, hp₁⟩ := hstart.spawn_user .forker (by decide)
    (by decide) (by decide) (by decide)
  have hroot := hp₁.books.pageTable_pos List.mem_cons_self hd
  exact ⟨_, d, hr.steps (hsteps₁.trans (hp₁.enter hd hroot)), hd, rfl, rfl, rfl, rfl,
    hticks₁.trans hticks, rfl, hroot, hp₁.books.kernelRoot_pos⟩

theorem Proc.pick_lone (hl : s.procs.length = 1) (hp : s.proc 0 = some p) (hr : p.state = .runnable) :
    pick s = .ok (Sys.goto { s.setProc 0 (fun p => { p with state := .running }) with
      nextSlot := 1
      current := some 0 } ([.switchTo p.pageTable, .swtchTo 0] ++ afterSwitch s)) := by
  have hscan : scan s = some 0 := by
    have hready : isRunnable s 0 = true := by
      unfold isRunnable
      rw [hp]
      exact decide_eq_true hr
    have hone : (List.range 1).map (fun i => (s.nextSlot + i) % 1) = [0] := by
      simp [List.range_succ, Nat.mod_one]
    unfold scan
    dsimp only
    rw [hl, hone, List.find?_cons_of_pos hready]
  unfold pick
  rw [hscan]
  dsimp only
  rw [hp]
  rfl

theorem Lone.inside (h : Lone s d) : ∃ t, Inside s 0 (Proc.seated d) t := by
  obtain ⟨t, ht, _⟩ := h.spawned.table
  refine ⟨t, by rw [h.hart]; rfl, by rw [h.hart]; rfl, Sys.currentProc_some h.current ?_, ht⟩
  unfold Sys.proc
  rw [h.procs]
  rfl

/-- It asks for ten milliseconds. -/
theorem Lone.asks (h : Lone s d) : Reachable smallEnv none (s.called 5 10 0) ∧
    exec smallEnv (fun _ => 0) (s.called 5 10 0)
      (.kerneltrap (Trap.frameOf (s.computed (callRegs 5 10 0) userText).hart) 8 0) [] =
        .ok ((s.called 5 10 0).goto [.sleepTicks 1, .sysRet (s.callFrame 5 10 0) 0]) := by
  obtain ⟨t, hin⟩ := h.inside
  have hms : sleepMs 10 = 1 := by decide
  refine ⟨h.reachable.steps (hin.calls h.reachable h.spawned.image 5 10 0 (by decide) (by decide)
    (by decide)), ?_⟩
  rw [← hms]
  rfl

/-- It sleeps, and the scheduler waits for an interrupt. -/
theorem Lone.sleeps (h : Lone s d) : ∃ s₁ : Sys T, ∃ p,
    Runs smallEnv ((s.called 5 10 0).goto [.sleepTicks 1, .sysRet (s.callFrame 5 10 0) 0]) s₁ ∧
    s₁.hart.sie = true ∧ s₁.proc 0 = some p ∧ p.state = .sleeping tickChan ∧
    codeOf s₁ p = [.setIntena false, .popOff, .tickWhile 1, .sysRet (s.callFrame 5 10 0) 0] := by
  obtain ⟨_, _, hprocs, hcur, hnext, hsched, hticks, hhart, hspace, hkernel⟩ := h
  obtain ⟨phys, heap, kroot, procs, ptr, cap, cur, next, sctx, pid, ticks, input, sem, chan, locked,
    boxes, hart⟩ := s
  obtain rfl : procs = _ := hprocs
  obtain rfl : cur = _ := hcur
  obtain rfl : next = _ := hnext
  obtain rfl : sctx = ⟨[.switchTo kroot, .clearCurrent, .popOff, .schedLoop], .boot⟩ := hsched
  obtain rfl : ticks = _ := hticks
  obtain rfl : hart = _ := hhart
  let f : TrapFrame := ⟨callRegs 5 10 0, userText + 4, ⟨false, true⟩⟩
  let asleep : Process T := { (Proc.seated d : Process T) with
    state := .sleeping tickChan
    context := ⟨[.setIntena false, .popOff, .tickWhile 1, .sysRet f 0], .kernel d.kstackTop⟩ }
  let sys (cur : Option Nat) (sie : Bool) (noff : Nat) (satp : Nat) (code : List (Instr T)) : Sys T :=
    ⟨phys, heap, kroot, [some asleep], ptr, cap, cur, 1, ⟨[], .boot⟩, pid, 0, input, sem, chan, locked,
      boxes, ⟨code, .boot, sie, noff, false, satp, 0, callRegs 5 10 0, userText⟩⟩
  refine ⟨sys none true 0 kroot [.pushOff, .reap 0], asleep, ?_, rfl, rfl, rfl, rfl⟩
  -- `sleep_ticks` up to the switch
  iterate 6 refine .head (.of_exec rfl rfl) ?_
  show Runs smallEnv (sys (some 0) false 1 d.pageTable [.switchTo kroot, .clearCurrent, .popOff, .schedLoop]) _
  -- the scheduler up to its window for interrupts
  refine .head (.of_exec rfl (exec_switchTo _ _ hkernel)) ?_
  iterate 4 refine .head (.of_exec rfl rfl) ?_
  exact .refl

end Osmium
