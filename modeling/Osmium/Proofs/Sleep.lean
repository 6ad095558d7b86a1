import Osmium.Proofs.Blocking

namespace Osmium
open Lib Vm Control Site Level Syscall

variable {T : Type} {E : Env} {s s' : Sys T}

/-- The thread in slot `i` is in a call that sleeps until the given tick. -/
def Abed (i : Nat) (f : TrapFrame) (target : Nat) (s : Sys T) : Prop :=
  ∃ p, s.proc i = some p ∧ Over (Dozes target [.sysRet f 0]) (codeOf s p)

/-- The caller gets out of the loop only when the tick has come. -/
theorem Abed.step (h : Holds S lvl top s) (hb : Abed i f target s) (move : Step E s s') :
    Abed i f target s' ∨ target ≤ s.ticks := by
  obtain ⟨p, hp, ho⟩ := hb
  obtain ⟨p', hp', ho' | ⟨_, _, _, _, hlate⟩⟩ := ho.step h (Dozes.forms E s target _) hp move
  · exact .inl ⟨p', hp', ho'⟩
  · exact .inr hlate

/-- A run from `s₀` at time `t₀` with the timer armed for `due₀`, up to a state at
some time: how far the clock is, for when the timer is armed, and how many ticks
there were. The timer goes off no earlier than armed, and each tick arms it anew. -/
inductive Timed (E : Env) (s₀ : Sys T) (t₀ due₀ : Nat) : Sys T → Nat → Nat → Nat → Prop where
  | start : Timed E s₀ t₀ due₀ s₀ t₀ due₀ 0
  | other (before : Timed E s₀ t₀ due₀ s₁ t due n) (move : Step E s₁ s₂)
      (busy : ∀ k, s₁.hart.code ≠ .onTick :: k) (later : t ≤ t') : Timed E s₀ t₀ due₀ s₂ t' due n
  | tick (before : Timed E s₀ t₀ due₀ s₁ t due n) (junk : Regs) (code : s₁.hart.code = .onTick :: k)
      (run : exec E junk s₁ .onTick k = .ok s₂) (later : t ≤ t') (fired : due ≤ t') :
      Timed E s₀ t₀ due₀ s₂ t' (t' + tickInterval) (n + 1)

namespace Timed

variable {s₀ : Sys T} {t₀ due₀ t due n : Nat}

theorem reachable (h : Timed E s₀ t₀ due₀ s t due n) (hr : Reachable E reserved s₀) :
    Reachable E reserved s := by
  induction h with
  | start => exact hr
  | other _ move _ _ ih => exact ih.step move
  | tick _ junk code run _ _ ih => exact ih.step (.exec junk code run)

/-- The kernel's count wraps around, but never runs ahead. -/
theorem ticks_le (h : Timed E s₀ t₀ due₀ s t due n) : s.ticks ≤ s₀.ticks + n := by
  induction h with
  | start => exact Nat.le_refl _
  | other _ move busy _ ih =>
    cases move with
    | exec junk code run =>
      rw [(exec_turns code run).ticks fun he => busy _ (he ▸ code)]
      exact ih
    | _ => exact ih
  | tick _ junk code run _ _ ih =>
    rw [← Except.ok.inj run]
    exact Nat.le_trans (Nat.mod_le _ _) (Nat.succ_le_succ ih)

/-- The first tick comes no earlier than the timer was armed for, the others each
an interval after the one before. -/
theorem clock (h : Timed E s₀ t₀ due₀ s t due n) : t₀ ≤ t ∧ (n = 0 ∧ due = due₀ ∨
    max t₀ due₀ + n * tickInterval ≤ due ∧ due ≤ t + tickInterval) := by
  induction h with
  | start => exact ⟨Nat.le_refl _, .inl ⟨rfl, rfl⟩⟩
  | other _ _ _ later ih =>
    refine ⟨Nat.le_trans ih.1 later, ih.2.imp_right fun h => ⟨h.1, ?_⟩⟩
    omega
  | tick _ _ _ _ later fired ih =>
    obtain ⟨hstart, hdue⟩ := ih
    refine ⟨Nat.le_trans hstart later, .inr ⟨?_, Nat.le_refl _⟩⟩
    rw [Nat.succ_mul, ← Nat.add_assoc]
    refine Nat.add_le_add_right ?_ _
    rcases hdue with ⟨rfl, rfl⟩ | ⟨hdue, _⟩
    · rw [Nat.zero_mul]
      omega
    · exact Nat.le_trans hdue fired

/-- Counting `k` ticks takes until the first one, and `k - 1` intervals more. -/
theorem elapsed (h : Timed E s₀ t₀ due₀ s t due n) (hk : 0 < k) (hn : k ≤ n) :
    t₀ + ((due₀ - t₀) + (k - 1) * tickInterval) ≤ t := by
  obtain ⟨_, ⟨rfl, _⟩ | ⟨hdue, hnow⟩⟩ := h.clock
  · omega
  · have hmul : (k - 1) * tickInterval + tickInterval ≤ n * tickInterval := by
      rw [← Nat.succ_mul]
      exact Nat.mul_le_mul_right _ (by omega)
    omega

/-- A run may begin with any step that takes no time. -/
theorem head (move : Step E s₀ s₁) (busy : ∀ k, s₀.hart.code ≠ .onTick :: k)
    (h : Timed E s₁ t₀ due₀ s t due n) : Timed E s₀ t₀ due₀ s t due n := by
  induction h with
  | start => exact .other .start move busy (Nat.le_refl _)
  | other _ move busy later ih => exact .other ih move busy later
  | tick _ junk code run later fired ih => exact .tick ih junk code run later fired

theorem exec (code : s₀.hart.code = i :: k) (run : Osmium.exec E (fun _ => 0) s₀ i k = .ok s₁)
    (hi : i ≠ .onTick) (h : Timed E s₁ t₀ due₀ s t due n) : Timed E s₀ t₀ due₀ s t due n := by
  refine head (.exec _ code run) (fun k' he => hi ?_) h
  exact (List.cons.inj (code.symm.trans he)).1

theorem head_tick (code : s₀.hart.code = .onTick :: k)
    (run : Osmium.exec E (fun _ => 0) s₀ .onTick k = .ok s₁) (fired : t₀ ≤ due₀)
    (h : Timed E s₁ due₀ (due₀ + tickInterval) s t due n) : Timed E s₀ t₀ due₀ s t due (n + 1) := by
  induction h with
  | start => exact .tick .start _ code run fired (Nat.le_refl _)
  | other _ move busy later ih => exact .other ih move busy later
  | tick _ junk code run later fired ih => exact .tick ih junk code run later fired

end Timed

theorem dispatch_sleep (call : f.a7 = 5) (run : dispatch E s f = .ok s') :
    s' = s.goto [.sleepTicks (sleepMs f.a0), .sysRet { f with sepc := f.sepc + 4 } 0] := by
  simp only [dispatch, bind_ok] at run
  obtain ⟨sepc, hsepc, run⟩ := run
  obtain ⟨rfl, _⟩ := Heap.checked_eq hsepc
  have hcall : ({ f with sepc := f.sepc + 4 } : TrapFrame).a7 = 5 := call
  rw [hcall] at run
  exact (Except.ok.inj run).symm

theorem sleepMs_pos (ms : Nat) : 0 < sleepMs ms := by
  unfold sleepMs
  omega

theorem Control.Holds.sleeper (h : Holds S lvl top s)
    (hcode : s.hart.code = [.sleepTicks n, .sysRet f 0]) (hcur : s.current = some i) :
    s.hart.sie = false ∧ ∃ p, s.proc i = some p ∧ p.context.code = [] := by
  obtain ⟨rfl, q, rfl, rest⟩ := h.leads hcode
  obtain ⟨_, hl, _⟩ := rest.leads
  cases hl
  obtain ⟨j, p, hat, _⟩ := h.place
  obtain rfl := Option.some.inj (hat.current.symm.trans hcur)
  exact ⟨h.reads.2, p, hat.here, hat.empty⟩

/-- The first step of `sleep_ticks` sets the target. -/
theorem Abed.falls (h : Holds S lvl top s) (hcode : s.hart.code = [.sleepTicks n, .sysRet f 0])
    (hcur : s.current = some i) (move : Step E s s') : Abed i f (s.ticks + n) s' := by
  obtain ⟨hoff, p, hp, hempty⟩ := h.sleeper hcode hcur
  cases move with
  | exec junk code run =>
    obtain ⟨rfl, rfl⟩ := List.cons.inj (code.symm.trans hcode)
    simp only [exec, Timer.sleepTicks] at run
    split at run
    · obtain rfl := Except.ok.inj run
      refine ⟨p, hp, .base ?_⟩
      rw [codeOf_hart hempty]
      exact .sleeps .again
    · cases run
  | interrupt irq on kernel =>
    rw [hoff] at on
    cases on
  | call op code | leave code | bootCall op early code | bootDone code | userInterrupt irq code
  | userAlu regs pc words code | userStore va pa b code mapped
  | userTrap cause stval word code fetched =>
    rw [hcode] at code
    cases code

/-- Until as many ticks as asked for have come, the caller is in the call. -/
theorem Timed.abed (h : Timed E s₀ t₀ due₀ s t due m) (hr : Reachable E reserved s₀)
    (hcode : s₀.hart.code = [.sleepTicks n, .sysRet f 0]) (hcur : s₀.current = some i) :
    s = s₀ ∧ m = 0 ∨ Abed i f (s₀.ticks + n) s ∨ n ≤ m := by
  induction h with
  | start => exact .inl ⟨rfl, rfl⟩
  | other before move busy later ih =>
    obtain ⟨res, lost, _, hs⟩ := reachable_sane (before.reachable hr)
    obtain ⟨S, lvl, top, hh⟩ := hs.control
    rcases ih with ⟨rfl, _⟩ | hb | hn
    · exact .inr (.inl (Abed.falls hh hcode hcur move))
    · refine .inr ((hb.step hh move).imp_right fun hle => ?_)
      exact Nat.le_of_add_le_add_left (Nat.le_trans hle before.ticks_le)
    · exact .inr (.inr hn)
  | tick before junk code run later fired ih =>
    obtain ⟨S, lvl, top, hh⟩ := (before.reachable hr).controlled
    rcases ih with ⟨rfl, _⟩ | hb | hn
    · rw [hcode] at code
      cases code
    · refine .inr ((hb.step hh (.exec junk code run)).imp_right fun hle => ?_)
      exact Nat.le_succ_of_le (Nat.le_of_add_le_add_left (Nat.le_trans hle before.ticks_le))
    · exact .inr (.inr (Nat.le_succ_of_le hn))

/-- The call, a nap until the tick that the timer is armed for, and back. -/
theorem Lone.naps (h : Lone s d) (due : Nat) : ∃ s₁ : Sys T, ∃ p,
    Timed smallEnv ((s.called 5 10 0).goto [.sleepTicks 1, .sysRet (s.callFrame 5 10 0) 0]) 0 due
      s₁ due (due + tickInterval) 1 ∧ s₁.proc 0 = some p ∧ codeOf s₁ p = [.umode] := by
  obtain ⟨_, _, hprocs, hcur, hnext, hsched, hticks, hhart, hspace, hkernel⟩ := h
  obtain ⟨phys, heap, kroot, procs, ptr, cap, cur, next, sctx, pid, ticks, input, sem, chan, locked,
    boxes, hart⟩ := s
  obtain rfl : procs = _ := hprocs
  obtain rfl : cur = _ := hcur
  obtain rfl : next = _ := hnext
  obtain rfl : sctx = ⟨[.switchTo kroot, .clearCurrent, .popOff, .schedLoop], .boot⟩ := hsched
  obtain rfl : ticks = _ := hticks
  obtain rfl : hart = _ := hhart
  let f : TrapFrame := ⟨callRegs 5 10 0, userText + 4, ⟨false, true⟩⟩
  let rest : List (Instr T) := [.popOff, .tickWhile 1, .sysRet f 0]
  let asleep : Process T := { (Proc.seated d : Process T) with
    state := .sleeping tickChan
    context := ⟨.setIntena false :: rest, .kernel d.kstackTop⟩ }
  let sys (p : Process T) (cur : Option Nat) (ticks : Nat) (sctx : Context T) (hart : Hart T) : Sys T :=
    ⟨phys, heap, kroot, [some p], ptr, cap, cur, 1, sctx, pid, ticks, input, sem, chan, locked, boxes,
      hart⟩
  let last : Sys T := sys (Proc.seated d) (some 0) 1
    ⟨[.switchTo kroot, .clearCurrent, .popOff, .schedLoop], .boot⟩
    ⟨[.sysRet f 0], .kernel d.kstackTop, false, 0, false, d.pageTable, 0, callRegs 5 10 0, userText⟩
  refine ⟨Trap.ret last (f.setA0 0), Proc.seated d, ?_, rfl, rfl⟩
  -- `sleep_ticks` up to the switch
  iterate 6 refine .exec rfl rfl (fun h => by cases h) ?_
  show Timed smallEnv (sys asleep (some 0) 0 ⟨[], .boot⟩
    ⟨[.switchTo kroot, .clearCurrent, .popOff, .schedLoop], .boot, false, 1, false, d.pageTable, 0,
      callRegs 5 10 0, userText⟩) 0 due _ _ _ 1
  -- the scheduler up to its window for interrupts
  refine .exec rfl (exec_switchTo _ _ hkernel) (fun h => by cases h) ?_
  iterate 4 refine .exec rfl rfl (fun h => by cases h) ?_
  refine .head (.interrupt .timer rfl (fun h => by cases h)) (fun _ h => by cases h) ?_
  refine .head_tick rfl rfl (Nat.zero_le due) ?_
  -- the rest of the handler
  iterate 7 refine .exec rfl rfl (fun h => by cases h) ?_
  show Timed smallEnv (sys { asleep with state := .runnable } none 1 ⟨[], .boot⟩
    ⟨[.pushOff, .reap 0], .boot, true, 0, false, kroot, 0, callRegs 5 10 0, userText⟩)
    due (due + tickInterval) _ _ _ 0
  -- the reap loop and the scan
  iterate 3 refine .exec rfl rfl (fun h => by cases h) ?_
  refine .exec rfl (Proc.pick_lone rfl rfl rfl) (fun h => by cases h) ?_
  show Timed smallEnv (sys { asleep with state := .running } (some 0) 1 ⟨[], .boot⟩
    ⟨[.switchTo d.pageTable, .swtchTo 0, .switchTo kroot, .clearCurrent, .popOff, .schedLoop], .boot,
      false, 1, true, kroot, 0, callRegs 5 10 0, userText⟩) due (due + tickInterval) _ _ _ 0
  refine .exec rfl (exec_switchTo _ _ hspace) (fun h => by cases h) ?_
  iterate 4 refine .exec rfl rfl (fun h => by cases h) ?_
  exact .exec rfl rfl (fun h => by cases h) .start

/-- From the call on, whatever the rest of the system does: if the time to the
next tick and one interval less than the rounded ticks make up for the
milliseconds asked for, the caller is not back in its program before these have
passed. -/
theorem sleep_ms_lasts (hr : Reachable E reserved s) (code : s.hart.code = .kerneltrap f 8 stval :: k)
    (cur : s.current = some i) (call : f.a7 = 5)
    (run : exec E junk s (.kerneltrap f 8 stval) k = .ok s₀)
    (phase : f.a0 * (timebaseFreq / 1000) ≤ (due₀ - t₀) + (sleepMs f.a0 - 1) * tickInterval)
    (timed : Timed E s₀ t₀ due₀ s₁ t₁ due₁ m) (here : s₁.proc i = some p)
    (back : codeOf s₁ p = [.umode]) : t₀ + f.a0 * (timebaseFreq / 1000) ≤ t₁ := by
  have hs₀ := dispatch_sleep call (show dispatch E s f = .ok s₀ from run)
  have hcur₀ : s₀.current = some i := by
    rw [hs₀]
    exact cur
  have hcode₀ : s₀.hart.code =
      [.sleepTicks (sleepMs f.a0), .sysRet { f with sepc := f.sepc + 4 } 0] := by
    rw [hs₀]
    rfl
  have hr₀ : Reachable E reserved s₀ := hr.step (.exec junk code run)
  rcases timed.abed hr₀ hcode₀ hcur₀ with ⟨rfl, _⟩ | ⟨q, hq, hd⟩ | hn
  · obtain ⟨res, lost, _, hs⟩ := reachable_sane hr₀
    obtain ⟨S, lvl, top, hh⟩ := hs.control
    obtain ⟨_, q, hq, hempty⟩ := hh.sleeper hcode₀ hcur₀
    obtain rfl := Option.some.inj (hq.symm.trans here)
    rw [codeOf_hart hempty, hcode₀] at back
    cases back
  · obtain rfl := Option.some.inj (hq.symm.trans here)
    exact absurd back (hd.working (Dozes.forms E s₁ _ _) .umode rfl)
  · exact Nat.le_trans (Nat.add_le_add_left phase t₀) (timed.elapsed (sleepMs_pos _) hn)

/-- Ten milliseconds, called just after a tick. -/
theorem sleep_ms_lasts_tick : ∃ (s s₀ s₁ : Sys Nat) (f : TrapFrame) (p : Process Nat),
    Reachable smallEnv none s ∧ s.hart.code = [.kerneltrap f 8 0] ∧ s.current = some 0 ∧
    f.a7 = 5 ∧ f.a0 = 10 ∧ exec smallEnv (fun _ => 0) s (.kerneltrap f 8 0) [] = .ok s₀ ∧
    Timed smallEnv s₀ 0 tickInterval s₁ tickInterval (tickInterval + tickInterval) 1 ∧
    s₁.proc 0 = some p ∧ codeOf s₁ p = [.umode] ∧ 0 + 10 * (timebaseFreq / 1000) ≤ tickInterval := by
  obtain ⟨s, d, h⟩ := lone Nat
  obtain ⟨hr, hrun⟩ := h.asks
  obtain ⟨s₁, p, htimed, hp, hback⟩ := h.naps tickInterval
  have hphase : 10 * (timebaseFreq / 1000) ≤ (tickInterval - 0) + (sleepMs 10 - 1) * tickInterval := by
    decide
  have hlasts := sleep_ms_lasts hr rfl h.current rfl hrun hphase htimed hp hback
  exact ⟨_, _, s₁, _, p, hr, rfl, h.current, rfl, rfl, hrun, htimed, hp, hback, hlasts⟩

/-- Ten milliseconds, called when a tick is due: the caller is back at once. -/
theorem sleep_cut_short : ∃ (s s₀ s₁ : Sys Nat) (f : TrapFrame) (p : Process Nat),
    Reachable smallEnv none s ∧ s.hart.code = [.kerneltrap f 8 0] ∧ s.current = some 0 ∧
    f.a7 = 5 ∧ f.a0 = 10 ∧ exec smallEnv (fun _ => 0) s (.kerneltrap f 8 0) [] = .ok s₀ ∧
    Timed smallEnv s₀ 0 0 s₁ 0 tickInterval 1 ∧ s₁.proc 0 = some p ∧ codeOf s₁ p = [.umode] ∧
    ¬0 + 10 * (timebaseFreq / 1000) ≤ 0 := by
  obtain ⟨s, d, h⟩ := lone Nat
  obtain ⟨hr, hrun⟩ := h.asks
  obtain ⟨s₁, p, htimed, hp, hback⟩ := h.naps 0
  rw [Nat.zero_add] at htimed
  exact ⟨_, _, s₁, _, p, hr, rfl, h.current, rfl, rfl, hrun, htimed, hp, hback, by decide⟩

end Osmium
