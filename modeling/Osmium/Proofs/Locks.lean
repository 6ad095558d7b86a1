import Osmium.Proofs.SyncRun

namespace Osmium
open Lib Control Site Level

variable {T : Type} {E : Env} {s s' : Sys T}

/-- The locks whose sections are made of several pieces. -/
def LockId.spans : LockId → Bool
  | .count _ | .buf _ | .input => true
  | _ => false

namespace Instr

/-- The pieces inside a critical section. -/
def within : Instr T → Bool
  | .increment _ | .pushBack .. | .popFront _ | .ringPush _ => true
  | _ => false

/-- The lock a piece starts under, when it is the one that lets go of it. -/
def under : Instr T → Option LockId
  | .release l => some l
  | .semCheck a => some (.count a)
  | .getcharCheck _ => some .input
  | _ => none

/-- The lock a piece takes. -/
def takes : Instr T → Option LockId
  | .acquire l => some l
  | _ => none

end Instr

/-- The lock that code expects to hold. -/
def underLock : List (Instr T) → Option LockId
  | [] => none
  | i :: k => if i.within then underLock k else i.under

/-- Critical sections are short: they begin with the lock's `acquire`, end with
its `release`, and have nothing but accesses between. -/
def Sections : List (Instr T) → Prop
  | [] => True
  | i :: k => ((i.within = false → underLock k = i.takes) ∧ i.under.all LockId.spans = true) ∧
      Sections k

theorem Sections.spans {c : List (Instr T)} (h : Sections c) (hl : underLock c = some l) :
    l.spans = true := by
  induction c with
  | nil => cases hl
  | cons i k ih =>
    obtain ⟨⟨_, hspan⟩, hk⟩ := h
    unfold underLock at hl
    split at hl
    · exact ih hk hl
    · rw [hl] at hspan
      exact hspan

theorem Sections.plain {k : List (Instr T)} (hs : Sections (i :: k)) (hp : i.plain = true)
    (hl : i.locks = false) : underLock k = underLock (i :: k) := by
  obtain ⟨⟨hk, _⟩, _⟩ := hs
  cases i <;> first | exact (hk rfl).trans rfl | rfl | (cases hl; done) | cases hp

/-- Closed sections stay closed, and only the pieces that lock change hands. -/
theorem Follows.sections (h : Follows E s i k c) (hs : Sections (i :: k)) :
    Sections c ∧ (i.locks = false → underLock c = underLock (i :: k)) := by
  cases h with
  | plain acts => exact ⟨hs.2, fun hl => hs.plain acts hl⟩
  | idle idles => exact ⟨hs, fun _ => rfl⟩
  | drop drops =>
    refine ⟨⟨⟨fun _ => rfl, rfl⟩, trivial⟩, fun _ => ?_⟩
    cases i <;> first | rfl | cases drops
  | exit | schedLoop | reapNext | reapDone | pickNone | pick | trapBreak | trapServed | trapKill
  | read | fork | forkNone =>
    simp [Sections, underLock, Instr.within, Instr.under, Instr.takes, Proc.exitCode, Proc.wakeup,
      Proc.afterSwitch, Proc.publishing]
  | trapCall calls =>
    cases calls <;> simp [Sections, underLock, Instr.within, Instr.under, Instr.takes, Proc.yieldNow]
  | fetchEntry =>
    rename_i p _
    cases p.entry <;> simp [Sections, underLock, Instr.within, Instr.under, Instr.takes, Proc.entryCode]
  | execCommit =>
    rename_i p _ _ _
    cases hu : p.userTable <;> simp [Sections, underLock, Instr.within, Instr.under, Instr.takes,
      Proc.execRest, hu]
  | _ =>
    obtain ⟨⟨hk, _⟩, hk'⟩ := hs
    replace hk := hk rfl
    simp_all [Sections, underLock, Instr.within, Instr.under, Instr.takes, LockId.spans, Proc.yieldNow, Proc.sleep,
      Console.getcharCode, Sync.waitCode, Proc.publishing, Instr.locks]

/-- A lock is held only where interrupts are off. -/
theorem Control.Code.masked {c : List (Instr T)} (h : Code kroot top S lvl c)
    (hl : underLock c = some l) : ∃ d q, lvl = nest (d + 1) q := by
  induction h with
  | release site rest => exact ⟨_, _, rfl⟩
  | semCheck rest | increment rest | pushBack rest | popFront rest | checkKernel rest => exact ⟨_, _, rfl⟩
  | checkUser => exact ⟨_, _, rfl⟩
  | ringPush site rest ih => exact ih hl
  | _ => cases hl

/-- Code that waits outside of any critical section. -/
structure Closed (c : List (Instr T)) : Prop where
  sections : Sections c
  free : underLock c = none

theorem Closed.tail {k : List (Instr T)} (h : Sections (i :: k)) (hw : i.within = false)
    (ht : i.takes = none) : Closed k := ⟨h.2, (h.1.1 hw).trans ht⟩

/-- The locks that are taken are those the hart's code will release; no code
that waits elsewhere has any. -/
structure Locked (s : Sys T) : Prop where
  front : Sections s.hart.code
  sched : Closed s.schedulerCtx.code
  procs : ∀ j q, s.proc j = some q → Closed q.context.code
  taken : ∀ l, s.locked l = true ↔ underLock s.hart.code = some l

namespace Locked

theorem none_taken (h : Locked s) (hn : underLock s.hart.code = none) (l : LockId) :
    s.locked l = false := by
  rw [← Bool.not_eq_true, h.taken, hn]
  exact nofun

theorem exec_procs (h : Locked s) (hcode : s.hart.code = i :: k)
    (run : Osmium.exec E junk s i k = .ok s') (hq : s'.proc j = some q) : Closed q.context.code := by
  have hfront := h.front
  rw [hcode] at hfront
  rcases (exec_contexts hcode run).1 j q hq with hc | hc | ⟨p, hp, hc⟩ | ⟨rfl, hc⟩
  · rw [hc]
    exact ⟨trivial, rfl⟩
  · rw [hc]
    exact ⟨by simp [Sections, underLock, Instr.within, Instr.under, Instr.takes, Proc.threadEntry], rfl⟩
  · rw [hc]
    exact h.procs j p hp
  · rw [hc]
    obtain ⟨h1, h2⟩ := Closed.tail hfront rfl rfl
    exact ⟨⟨⟨fun _ => h2, rfl⟩, h1⟩, rfl⟩

theorem exec_sched (h : Locked s) (hcode : s.hart.code = i :: k)
    (run : Osmium.exec E junk s i k = .ok s') : Closed s'.schedulerCtx.code := by
  have hfront := h.front
  rw [hcode] at hfront
  rcases (exec_contexts hcode run).2.1 with hc | hc | ⟨hsw, hc⟩
  · rw [hc]
    exact h.sched
  · rw [hc]
    exact ⟨trivial, rfl⟩
  · rw [hc]
    cases i <;> first | (cases hsw; done) | exact Closed.tail hfront rfl rfl

theorem released {s : Sys T} (h : s.locked l = true ↔ some l' = some l) :
    ¬(if l = l' then false else s.locked l) = true := by
  by_cases he : l = l'
  · simp [he]
  · rw [if_neg he, h]
    exact fun hn => he (Option.some.inj hn).symm

/-- The pieces that lock or unlock. -/
theorem exec_locks (h : Locked s) (hcode : s.hart.code = i :: k)
    (run : Osmium.exec E junk s i k = .ok s') (hl : i.locks = true) (l : LockId) :
    s'.locked l = true ↔ underLock s'.hart.code = some l := by
  have hfront := h.front
  have htaken := h.taken l
  rw [hcode] at hfront htaken
  cases i with
  | acquire l' =>
    simp only [Osmium.exec, bind_ok, Except.ok.injEq] at run
    obtain ⟨s₁, hr, rfl⟩ := run
    obtain ⟨_, rfl⟩ := acquire_eq hr
    have hk : underLock k = some l' := hfront.1.1 rfl
    have hold : ¬s.locked l = true := by
      rw [htaken]
      exact fun hn => by cases hn
    show (if l = l' then true else s.locked l) = true ↔ underLock k = some l
    rw [hk]
    by_cases he : l = l'
    · simp [he]
    · rw [if_neg he]
      exact ⟨fun hn => absurd hn hold, fun hn => absurd (Option.some.inj hn).symm he⟩
  | release l' =>
    simp only [Osmium.exec, bind_ok, Except.ok.injEq] at run
    obtain ⟨s₁, hr, rfl⟩ := run
    obtain ⟨_, _, rfl⟩ := release_eq hr
    have hk : underLock k = none := hfront.1.1 rfl
    show (if l = l' then false else s.locked l) = true ↔ underLock k = some l
    rw [hk]
    exact ⟨fun hn => absurd hn (released htaken), fun hn => by cases hn⟩
  | semCheck a =>
    rcases semCheck_eq run with ⟨_, rfl⟩ | ⟨_, s₁, s₂, hr, hs, rfl⟩
    · exact htaken
    · obtain ⟨_, _, rfl⟩ := release_eq hr
      obtain ⟨_, _, _, _, rfl⟩ := Proc.setState_eq hs
      exact ⟨fun hn => absurd hn (released htaken), fun hn => by cases hn⟩
  | _ => cases hl

theorem exec (h : Locked s) (hcode : s.hart.code = i :: k)
    (run : Osmium.exec E junk s i k = .ok s') : Locked s' := by
  have ht := exec_turns hcode run
  have hfront := h.front
  rw [hcode] at hfront
  by_cases hsw : i.switches = true
  · -- the hart goes on with code that was waiting
    have hclosed : Closed s'.hart.code := by
      rcases (exec_contexts hcode run).2.2 hsw with hc | ⟨j, q, hq, hc⟩
      · rw [hc]
        exact h.sched
      · rw [hc]
        exact h.procs j q hq
    have hfree : underLock s.hart.code = none := by
      rw [hcode]
      cases i <;> first | rfl | cases hsw
    refine ⟨hclosed.sections, h.exec_sched hcode run, fun j q hq => h.exec_procs hcode run hq,
      fun l => ?_⟩
    have hlocks : i.locks = false := by cases i <;> first | rfl | cases hsw
    rw [ht.locked hlocks, h.none_taken hfree, hclosed.free]
    simp
  · have hfollow := ht.code (Bool.not_eq_true _ ▸ hsw)
    obtain ⟨hsec, hsame⟩ := hfollow.sections hfront
    refine ⟨hsec, h.exec_sched hcode run, fun j q hq => h.exec_procs hcode run hq, fun l => ?_⟩
    by_cases hl : i.locks = true
    · exact h.exec_locks hcode run hl l
    · rw [Bool.not_eq_true] at hl
      rw [ht.locked hl, hsame hl, h.taken l, hcode]

end Locked

namespace Closed

variable {c : List (Instr T)}

theorem op (E : Env) (o : Op T) (h : Closed c) : Closed (o.code E ++ c) := by
  obtain ⟨h1, h2⟩ := h
  constructor
  · cases o <;> simp [Op.code, Sections, underLock, Instr.within, Instr.under, Instr.takes,
      LockId.spans, Proc.yieldNow, Sync.signal, Sync.send, Sync.recv, Proc.wakeup, h1, h2]
  · cases o <;> rfl

theorem irq (E : Env) (i : Irq) (h : Closed c) : Closed (i.code E ++ c) := by
  cases i with
  | timer =>
    obtain ⟨h1, h2⟩ := h
    exact ⟨by simp [Irq.code, Timer.handler, Sections, underLock, Instr.within, Instr.under,
      Instr.takes, Proc.wakeup, h1, h2], rfl⟩
  | uart bytes =>
    induction bytes with
    | nil => exact h
    | cons b bytes ih =>
      obtain ⟨h1, h2⟩ := ih
      simp only [Irq.code, List.flatMap_cons, List.append_assoc] at h1 h2 ⊢
      exact ⟨by simp [Console.onInput, Sections, underLock, Instr.within, Instr.under, Instr.takes,
        LockId.spans, Proc.wakeup, h1, h2], rfl⟩

theorem single (i : Instr T) (hu : i.under = none) (ht : i.takes = none) : Closed [i] := by
  constructor
  · simp [Sections, underLock, hu, ht]
  · simp [underLock, hu]

end Closed

namespace Locked

/-- The hart leaves code outside of any section for other such code. -/
theorem moved (h : Locked s) (hfree : underLock s.hart.code = none) (h' : Hart T)
    (hc : Closed h'.code) (P : Phys) : Locked { s with hart := h', phys := P } where
  front := hc.sections
  sched := h.sched
  procs := h.procs
  taken l := by
    show s.locked l = true ↔ underLock h'.code = some l
    rw [h.none_taken hfree, hc.free]
    simp

/-- No lock is taken where an interrupt can land. -/
theorem unmasked (hh : Holds S lvl top s) (on : s.hart.sie = true) :
    underLock s.hart.code = none := by
  cases hu : underLock s.hart.code with
  | none => rfl
  | some l =>
    obtain ⟨d, q, rfl⟩ := hh.code.masked hu
    obtain ⟨_, hoff, _⟩ := hh.reads
    rw [hoff] at on
    cases on

theorem step (h : Locked s) (hh : Holds S lvl top s) (move : Step E s s') : Locked s' := by
  cases move with
  | exec junk code run => exact h.exec code run
  | call op code =>
    obtain ⟨_, _, rfl⟩ := hh.leads code
    exact h.moved (by rw [code]; rfl) _ ((Closed.single .body rfl rfl).op E op) s.phys
  | leave code => exact h.moved (by rw [code]; rfl) _ (.single .exit rfl rfl) s.phys
  | bootCall op early code =>
    obtain ⟨_, _, rfl⟩ := hh.leads code
    exact h.moved (by rw [code]; rfl) _ ((Closed.single .boot rfl rfl).op E op) s.phys
  | bootDone code => exact h.moved (by rw [code]; rfl) _ (.single .schedLoop rfl rfl) s.phys
  | interrupt irq on kernel =>
    have hfree := unmasked hh on
    have hback : Closed (.sretKernel :: s.hart.code) := ⟨⟨⟨fun _ => hfree, rfl⟩, h.front⟩, rfl⟩
    exact h.moved hfree _ (hback.irq E irq) s.phys
  | userInterrupt irq code =>
    exact h.moved (by rw [code]; rfl) _ ((Closed.single (.trapRet _) rfl rfl).irq E irq) s.phys
  | userAlu regs pc words code =>
    exact h.moved (by rw [code]; rfl) { s.hart with regs, pc } ⟨h.front, by rw [code]; rfl⟩ s.phys
  | userStore va pa b code mapped =>
    exact h.moved (by rw [code]; rfl) _ ⟨h.front, by rw [code]; rfl⟩ _
  | userTrap cause stval word code fetched =>
    exact h.moved (by rw [code]; rfl) _ (.single (.kerneltrap ..) rfl rfl) s.phys

theorem boot (run : kmain E reserved m regs = .ok s) : Locked s := by
  simp only [kmain, bind_ok, Except.ok.injEq] at run
  obtain ⟨_, _, _, _, _, _, _, _, _, _, _, _, _, _, rfl⟩ := run
  refine ⟨(Closed.single .boot rfl rfl).sections, ⟨trivial, rfl⟩, fun j q hq => ?_, fun l => ?_⟩
  · simp [Sys.proc] at hq
  · simp [underLock, Instr.within, Instr.under]

end Locked

theorem reachable_locked (h : Reachable E reserved s) : Locked s :=
  h.invariant (I := Locked) (fun _ _ _ run => .boot run) fun _ _ _ _ _ hh move hl => hl.step hh move

end Osmium
