import Osmium.Lib.Loops
import Osmium.Proofs.Code

namespace Osmium.Control
open Lib Site Level

variable {T : Type}

/-- What a level says about the hart. -/
def Level.Reads : Level → Hart T → Prop
  | nest 0 q, h => h.noff = 0 ∧ h.sie = q
  | nest (d + 1) q, h => h.noff = d + 1 ∧ h.sie = false ∧ h.intena = q
  | loose, h => h.noff = 0
  | held, h => h.noff = 1 ∧ h.sie = false

/-- A saved context can be resumed on its own stack, except that a zombie's is
only the call behind which it never returns. -/
def Ctx (kroot : Nat) (q : Process T) : Prop :=
  (q.state = .zombie → ∃ b, q.context.code = [.setIntena b, .unreachable]) ∧
    (q.state ≠ .zombie →
      Code kroot q.kstackTop thread held q.context.code ∧ q.context.stack = .kernel q.kstackTop)

/-- No slot but `i` runs or waits for the reaper. -/
def Alone (s : Sys T) (i : Nat) : Prop :=
  ∀ j q, s.proc j = some q → j ≠ i → q.state ≠ .running ∧ q.state ≠ .zombie

/-- The hart has taken process `p` out of slot `i` and left the scheduler's
context behind. -/
structure AtThread (s : Sys T) (i : Nat) (p : Process T) : Prop where
  current : s.current = some i
  here : s.proc i = some p
  empty : p.context.code = []
  alone : Alone s i
  contexts : ∀ j q, s.proc j = some q → j ≠ i → Ctx s.kernelRoot q
  back : ∃ top, Code s.kernelRoot top returned held s.schedulerCtx.code
  backStack : s.schedulerCtx.stack = .boot

/-- The hart executes the scheduler or `kmain`; every process is in its slot. -/
structure AtBoot (s : Sys T) : Prop where
  stack : s.hart.stack = .boot
  scratch : s.hart.sscratch = 0
  back : s.schedulerCtx.code = []
  contexts : ∀ j q, s.proc j = some q → Ctx s.kernelRoot q

/-- No slot runs, and only those in `dead` wait for the reaper. -/
def Still (s : Sys T) (dead : Nat → Prop) : Prop :=
  s.current = none ∧ s.hart.satp = s.kernelRoot ∧
    ∀ j q, s.proc j = some q → q.state ≠ .running ∧ (q.state = .zombie → dead j)

/-- The hart is on the kernel stack of `p`. -/
def OnStack (s : Sys T) (p : Process T) (top : Nat) : Prop :=
  p.kstackTop = top ∧ s.hart.stack = .kernel top ∧ s.hart.sscratch = 0

/-- What a site says about the process table, `satp` and the stack. -/
def Place : Site → Nat → Sys T → Prop
  | .thread, top, s => ∃ i p, AtThread s i p ∧ p.state = .running ∧ OnStack s p top ∧
      s.hart.satp = p.pageTable
  | .parted dead, top, s => ∃ i p, AtThread s i p ∧ p.state ≠ .running ∧
      (p.state = .zombie ↔ dead) ∧ OnStack s p top ∧ s.hart.satp = p.pageTable
  | .moving old new, top, s => ∃ i p, AtThread s i p ∧ p.state = .running ∧ OnStack s p top ∧
      s.hart.satp = old.getD s.kernelRoot ∧ p.pageTable = new
  | .user, top, s => ∃ i p, AtThread s i p ∧ p.state = .running ∧ p.kstackTop = top ∧
      s.hart.stack = .user ∧ s.hart.sscratch = top ∧ s.hart.satp = p.pageTable
  | .boot, _, s => AtBoot s ∧ Still s (fun _ => True)
  | .reaping k, _, s => AtBoot s ∧ Still s (fun j => k ≤ j)
  | .scanned, _, s => AtBoot s ∧ Still s (fun _ => False)
  | .picked i root, _, s => AtBoot s ∧ Alone s i ∧ s.current = some i ∧
      s.hart.satp = s.kernelRoot ∧ ∃ p, s.proc i = some p ∧ p.state = .running ∧ p.pageTable = root
  | .ready i, _, s => AtBoot s ∧ Alone s i ∧ s.current = some i ∧
      ∃ p, s.proc i = some p ∧ p.state = .running ∧ s.hart.satp = p.pageTable
  | .returned, _, s => AtBoot s ∧ ∃ i p, Alone s i ∧ s.current = some i ∧ s.proc i = some p ∧
      p.state ≠ .running ∧ s.hart.satp = p.pageTable
  | .restored, _, s => AtBoot s ∧ s.hart.satp = s.kernelRoot ∧ ∃ i p, Alone s i ∧
      s.current = some i ∧ s.proc i = some p ∧ p.state ≠ .running

structure Holds (S : Site) (lvl : Level) (top : Nat) (s : Sys T) : Prop where
  reads : lvl.Reads s.hart
  deep : S.isDeep → 0 < s.hart.noff
  place : Place S top s
  code : Code s.kernelRoot top S lvl s.hart.code

/-- What the piece that is next says about the control state. -/
theorem Holds.leads (h : Holds S lvl top s) (hcode : s.hart.code = c) : Code.Leads s.kernelRoot top S lvl c :=
  hcode ▸ h.code.leads

/-- The control state is one of those above. -/
def Controlled (s : Sys T) : Prop := ∃ S lvl top, Holds S lvl top s

/-- What `Place` looks at in a process: of its state, only whether it runs or is
dead. -/
def standing (p : Process T) : Bool × Bool × Context T × Nat × Nat :=
  (p.state = .running, p.state = .zombie, p.context, p.kstackTop, p.pageTable)

/-- Two machines that `Place` cannot tell apart. -/
structure SamePlace (s s' : Sys T) : Prop where
  procs : ∀ j, (s'.proc j).map standing = (s.proc j).map standing
  current : s'.current = s.current
  sched : s'.schedulerCtx = s.schedulerCtx
  root : s'.kernelRoot = s.kernelRoot
  satp : s'.hart.satp = s.hart.satp
  stack : s'.hart.stack = s.hart.stack
  scratch : s'.hart.sscratch = s.hart.sscratch

namespace SamePlace

theorem back (h : SamePlace s s') (hq : s'.proc j = some q') :
    ∃ q, s.proc j = some q ∧ standing q' = standing q := by
  have hj := h.procs j
  rw [hq] at hj
  cases hp : s.proc j with
  | none => rw [hp] at hj; cases hj
  | some q =>
    rw [hp] at hj
    exact ⟨q, rfl, Option.some.inj hj⟩

theorem forth (h : SamePlace s s') (hq : s.proc j = some q) :
    ∃ q', s'.proc j = some q' ∧ standing q' = standing q := by
  have hj := h.procs j
  rw [hq] at hj
  cases hp : s'.proc j with
  | none => rw [hp] at hj; cases hj
  | some q' =>
    rw [hp] at hj
    exact ⟨q', rfl, Option.some.inj hj⟩

end SamePlace

theorem standing_eq {q q' : Process T} (h : standing q' = standing q) :
    (q'.state = .running ↔ q.state = .running) ∧ (q'.state = .zombie ↔ q.state = .zombie) ∧
      q'.context = q.context ∧ q'.kstackTop = q.kstackTop ∧ q'.pageTable = q.pageTable := by
  simpa only [standing, Prod.mk.injEq, decide_eq_decide] using h

theorem Ctx.same {q q' : Process T} (h : Ctx kroot q) (hs : standing q' = standing q) :
    Ctx kroot q' := by
  obtain ⟨_, h2, h3, h4, _⟩ := standing_eq hs
  unfold Ctx at h ⊢
  rw [Ne, h2, h3, h4]
  exact h

theorem Alone.same (h : Alone s i) (hs : SamePlace s s') : Alone s' i := by
  intro j q' hq hj
  obtain ⟨q, hp, he⟩ := hs.back hq
  obtain ⟨e1, e2, _⟩ := standing_eq he
  rw [Ne, e1, Ne, e2]
  exact h j q hp hj

theorem AtThread.same (h : AtThread s i p) (hs : SamePlace s s') :
    ∃ p', AtThread s' i p' ∧ standing p' = standing p := by
  obtain ⟨p', hp', he⟩ := hs.forth h.here
  refine ⟨p', ?_, he⟩
  refine
    { current := hs.current.trans h.current
      here := hp'
      empty := by rw [(standing_eq he).2.2.1]; exact h.empty
      alone := h.alone.same hs
      contexts := ?_
      back := by rw [hs.root, hs.sched]; exact h.back
      backStack := by rw [hs.sched]; exact h.backStack }
  intro j q' hq hj
  obtain ⟨q, hp, heq⟩ := hs.back hq
  rw [hs.root]
  exact (h.contexts j q hp hj).same heq

theorem AtBoot.same (h : AtBoot s) (hs : SamePlace s s') : AtBoot s' where
  stack := hs.stack.trans h.stack
  scratch := hs.scratch.trans h.scratch
  back := by rw [hs.sched]; exact h.back
  contexts := by
    intro j q' hq
    obtain ⟨q, hp, he⟩ := hs.back hq
    rw [hs.root]
    exact (h.contexts j q hp).same he

theorem Still.same (h : Still s dead) (hs : SamePlace s s') : Still s' dead := by
  obtain ⟨h1, h2, h3⟩ := h
  refine ⟨hs.current.trans h1, by rw [hs.satp, hs.root]; exact h2, ?_⟩
  intro j q' hq
  obtain ⟨q, hp, he⟩ := hs.back hq
  obtain ⟨e1, e2, _⟩ := standing_eq he
  rw [Ne, e1, e2]
  exact h3 j q hp

theorem OnStack.same (h : OnStack s p top) (hs : SamePlace s s') (he : standing p' = standing p) :
    OnStack s' p' top := by
  obtain ⟨h1, h2, h3⟩ := h
  exact ⟨(standing_eq he).2.2.2.1.trans h1, hs.stack.trans h2, hs.scratch.trans h3⟩

theorem Place.same (h : Place S top s) (hs : SamePlace s s') : Place S top s' := by
  cases S with
  | thread =>
    obtain ⟨i, p, ht, hr, ho, hp⟩ := h
    obtain ⟨p', ht', he⟩ := ht.same hs
    obtain ⟨e1, e2, _, _, e4⟩ := standing_eq he
    exact ⟨i, p', ht', e1.mpr hr, ho.same hs he, by rw [hs.satp, e4]; exact hp⟩
  | parted dead =>
    obtain ⟨i, p, ht, hr, hz, ho, hp⟩ := h
    obtain ⟨p', ht', he⟩ := ht.same hs
    obtain ⟨e1, e2, _, _, e4⟩ := standing_eq he
    exact ⟨i, p', ht', by rw [Ne, e1]; exact hr, e2.trans hz, ho.same hs he,
      by rw [hs.satp, e4]; exact hp⟩
  | moving old new =>
    obtain ⟨i, p, ht, hr, ho, hp, hn⟩ := h
    obtain ⟨p', ht', he⟩ := ht.same hs
    obtain ⟨e1, e2, _, _, e4⟩ := standing_eq he
    exact ⟨i, p', ht', e1.mpr hr, ho.same hs he, by rw [hs.satp, hs.root]; exact hp,
      e4.trans hn⟩
  | user =>
    obtain ⟨i, p, ht, hr, hk, hst, hsc, hp⟩ := h
    obtain ⟨p', ht', he⟩ := ht.same hs
    obtain ⟨e1, _, _, e3, e4⟩ := standing_eq he
    exact ⟨i, p', ht', e1.mpr hr, e3.trans hk, hs.stack.trans hst, hs.scratch.trans hsc,
      by rw [hs.satp, e4]; exact hp⟩
  | boot => exact ⟨h.1.same hs, h.2.same hs⟩
  | reaping k => exact ⟨h.1.same hs, h.2.same hs⟩
  | scanned => exact ⟨h.1.same hs, h.2.same hs⟩
  | picked i root =>
    obtain ⟨hb, ha, hc, hsa, p, hp, hr, hpt⟩ := h
    obtain ⟨p', hp', he⟩ := hs.forth hp
    obtain ⟨e1, e2, _, _, e4⟩ := standing_eq he
    exact ⟨hb.same hs, ha.same hs, hs.current.trans hc, by rw [hs.satp, hs.root]; exact hsa, p',
      hp', e1.mpr hr, e4.trans hpt⟩
  | ready i =>
    obtain ⟨hb, ha, hc, p, hp, hr, hpt⟩ := h
    obtain ⟨p', hp', he⟩ := hs.forth hp
    obtain ⟨e1, e2, _, _, e4⟩ := standing_eq he
    exact ⟨hb.same hs, ha.same hs, hs.current.trans hc, p', hp', e1.mpr hr,
      by rw [hs.satp, e4]; exact hpt⟩
  | returned =>
    obtain ⟨hb, i, p, ha, hc, hp, hr, hpt⟩ := h
    obtain ⟨p', hp', he⟩ := hs.forth hp
    obtain ⟨e1, e2, _, _, e4⟩ := standing_eq he
    exact ⟨hb.same hs, i, p', ha.same hs, hs.current.trans hc, hp', by rw [Ne, e1]; exact hr,
      by rw [hs.satp, e4]; exact hpt⟩
  | restored =>
    obtain ⟨hb, hsa, i, p, ha, hc, hp, hr⟩ := h
    obtain ⟨p', hp', he⟩ := hs.forth hp
    exact ⟨hb.same hs, by rw [hs.satp, hs.root]; exact hsa, i, p', ha.same hs,
      hs.current.trans hc, hp', by rw [Ne, (standing_eq he).1]; exact hr⟩

end Osmium.Control
