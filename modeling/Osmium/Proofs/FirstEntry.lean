import Osmium.Proofs.Privacy

namespace Osmium
open Lib Vm Control

variable {T : Type} {E : Env} {s s' : Sys T} {d : ProcData}

/-- The code of a new user process on its way to U-mode. -/
inductive Entering (d : ProcData) : List (Instr T) → Prop where
  | arrive : Entering d [.popOff, .intrOn, .pushOff, .fetchEntry]
  | enable : Entering d [.intrOn, .pushOff, .fetchEntry]
  | mask : Entering d [.pushOff, .fetchEntry]
  | fetch : Entering d [.fetchEntry]
  | userUnmask (entry : d.entry = .userThreadBody) : Entering d [.popOff, .pushOff, .fetchUser]
  | userMask (entry : d.entry = .userThreadBody) : Entering d [.pushOff, .fetchUser]
  | userFetch (entry : d.entry = .userThreadBody) : Entering d [.fetchUser]
  | userFetched (entry : d.entry = .userThreadBody) :
      Entering d [.popOff, .userEntry d.userEntry d.userSp d.kstackTop]
  | userCheck (entry : d.entry = .userThreadBody) : Entering d [.userEntry d.userEntry d.userSp d.kstackTop]
  | userEnter (entry : d.entry = .userThreadBody) : Entering d [.enterUser d.userEntry d.userSp d.kstackTop]
  | forkUnmask (entry : d.entry = .forkretBody) : Entering d [.popOff, .pushOff, .fetchFork]
  | forkMask (entry : d.entry = .forkretBody) : Entering d [.pushOff, .fetchFork]
  | forkFetch (entry : d.entry = .forkretBody) : Entering d [.fetchFork]
  | forkFetched (entry : d.entry = .forkretBody) (frame : d.forkFrame = some (b, f)) :
      Entering d [.popOff, .intrOff, .userret f d.kstackTop]
  | forkMasked (entry : d.entry = .forkretBody) (frame : d.forkFrame = some (b, f)) :
      Entering d [.intrOff, .userret f d.kstackTop]
  | forkEnter (entry : d.entry = .forkretBody) (frame : d.forkFrame = some (b, f)) :
      Entering d [.userret f d.kstackTop]

/-- The process has just entered U-mode, with what it was created with. -/
structure Entered (l : Nat) (d : ProcData) (s : Sys T) : Prop where
  current : s.current = some l
  user : s.hart.stack = .user
  trap : s.hart.sscratch = d.kstackTop
  spawned : d.entry = .userThreadBody → s.hart.pc = d.userEntry ∧ s.hart.regs .sp = d.userSp ∧ s.hart.sie = true
  forked : d.entry = .forkretBody → ∃ b f, d.forkFrame = some (b, f) ∧ s.hart.regs = f.regs ∧
    s.hart.pc = f.sepc ∧ s.hart.sie = f.sstatus.spie

namespace Entering

/-- Where one piece is left, it depends on the process; elsewhere the code goes on
by itself. -/
theorem forms (E : Env) (s : Sys T) (d : ProcData) :
    Forms E s (Entering d) fun c _ => ∃ i, c = [i] ∧ Entering d [i] := by
  refine ⟨(fun h => by cases h), fun i k h => ?_, (fun b h => by cases h), fun i k c h hf => ?_⟩
  · cases h <;> exact ⟨rfl, fun hn => by cases hn⟩
  · cases h with
    | arrive =>
      cases hf with
      | plain => exact .inl (.base .enable)
      | idle acts | drop acts => cases acts
    | enable =>
      cases hf with
      | plain => exact .inl (.base .mask)
      | idle acts | drop acts => cases acts
    | mask =>
      cases hf with
      | plain => exact .inl (.base .fetch)
      | idle acts | drop acts => cases acts
    | userUnmask entry =>
      cases hf with
      | plain => exact .inl (.base (.userMask entry))
      | idle acts | drop acts => cases acts
    | userMask entry =>
      cases hf with
      | plain => exact .inl (.base (.userFetch entry))
      | idle acts | drop acts => cases acts
    | userFetched entry =>
      cases hf with
      | plain => exact .inl (.base (.userCheck entry))
      | idle acts | drop acts => cases acts
    | forkUnmask entry =>
      cases hf with
      | plain => exact .inl (.base (.forkMask entry))
      | idle acts | drop acts => cases acts
    | forkMask entry =>
      cases hf with
      | plain => exact .inl (.base (.forkFetch entry))
      | idle acts | drop acts => cases acts
    | forkFetched entry frame =>
      cases hf with
      | plain => exact .inl (.base (.forkMasked entry frame))
      | idle acts | drop acts => cases acts
    | forkMasked entry frame =>
      cases hf with
      | plain => exact .inl (.base (.forkEnter entry frame))
      | idle acts | drop acts => cases acts
    | fetch => exact .inr ⟨_, rfl, .fetch⟩
    | userFetch entry => exact .inr ⟨_, rfl, .userFetch entry⟩
    | userCheck entry => exact .inr ⟨_, rfl, .userCheck entry⟩
    | userEnter entry => exact .inr ⟨_, rfl, .userEnter entry⟩
    | forkFetch entry => exact .inr ⟨_, rfl, .forkFetch entry⟩
    | forkEnter entry frame => exact .inr ⟨_, rfl, .forkEnter entry frame⟩

/-- The last piece of one of its functions, run by the process itself. -/
theorem last (h : Entering d [i]) (huser : d.entry ≠ .kernel)
    (hc : s.currentProc = some (l, p)) (hd : p.toProcData = d) (run : exec E junk s i [] = .ok s') :
    s'.procs = s.procs ∧ s'.current = s.current ∧
      (Entering d s'.hart.code ∨ s'.hart.code = [.umode] ∧ Entered l d s') := by
  have hcur := (Sys.currentProc_eq hc).1
  cases h with
  | fetch =>
    simp only [exec, Proc.fetchEntry, hc, Except.ok.injEq] at run
    obtain rfl := run
    refine ⟨rfl, rfl, .inl ?_⟩
    have he : p.entry = d.entry := by rw [hd]
    show Entering d (Proc.entryCode p.entry)
    rw [he]
    cases hentry : d.entry with
    | kernel => exact absurd hentry huser
    | userThreadBody => exact .userUnmask hentry
    | forkretBody => exact .forkUnmask hentry
  | userFetch entry =>
    simp only [exec, Proc.fetchUser, hc, Except.ok.injEq] at run
    obtain rfl := run
    refine ⟨rfl, rfl, .inl ?_⟩
    rw [hd]
    exact .userFetched entry
  | userCheck entry =>
    simp only [exec, Proc.userEntry] at run
    split at run
    · cases run
    · obtain rfl := Except.ok.inj run
      exact ⟨rfl, rfl, .inl (.userEnter entry)⟩
  | userEnter entry =>
    obtain rfl := Except.ok.inj run
    refine ⟨rfl, rfl, .inr ⟨rfl, hcur, rfl, rfl, fun _ => ⟨rfl, rfl, rfl⟩, fun hf => ?_⟩⟩
    rw [entry] at hf
    cases hf
  | forkFetch entry =>
    simp only [exec, Proc.fetchFork, hc] at run
    split at run
    · cases run
    next b f hframe =>
      obtain rfl := Except.ok.inj run
      refine ⟨rfl, rfl, .inl ?_⟩
      rw [hd] at hframe ⊢
      exact .forkFetched entry hframe
  | forkEnter entry frame =>
    rename_i b f
    obtain rfl := Except.ok.inj run
    refine ⟨rfl, rfl, .inr ⟨rfl, hcur, rfl, rfl, fun hf => ?_, fun _ => ?_⟩⟩
    · rw [entry] at hf
      cases hf
    · exact ⟨b, f, frame, (restore_all f _).2, rfl, rfl⟩

/-- It is the process itself that runs. -/
theorem place (h : Entering d [i]) (hh : Holds S lvl top s) (hcode : s.hart.code = [i]) : Place .thread top s := by
  cases h
  all_goals
    obtain ⟨rfl, _⟩ := hh.leads hcode
    exact hh.place

end Entering

/-- Kernel code runs on, or an interrupt comes on top of it. -/
theorem Step.ran (move : Step E s s') (hcode : s.hart.code = i :: k) (hi : i.idles = false) :
    (∃ junk, Osmium.exec E junk s i k = .ok s') ∨ ∃ irq : Irq, s' = Trap.fromKernel s (irq.code E) := by
  cases move with
  | exec junk code run =>
    obtain ⟨rfl, rfl⟩ := List.cons.inj (hcode.symm.trans code)
    exact .inl ⟨junk, run⟩
  | interrupt irq on kernel => exact .inr ⟨irq, rfl⟩
  | call op code | leave code | bootCall op early code | bootDone code | userInterrupt irq code
  | userAlu regs pc words code | userStore va pa b code mapped
  | userTrap cause stval word code fetched =>
    obtain ⟨rfl, rfl⟩ := List.cons.inj (hcode.symm.trans code)
    cases hi

theorem Entering.step (h : Holds S lvl top s) (hp : s.proc l = some p) (hd : p.toProcData = d)
    (huser : d.entry ≠ .kernel) (ho : Over (Entering d) (codeOf s p)) (move : Step E s s') :
    ∃ p', s'.proc l = some p' ∧
      (Over (Entering d) (codeOf s' p') ∨ codeOf s' p' = [.umode] ∧ Entered l d s') := by
  obtain ⟨p', hp', ho' | ⟨hcur, _, i, hcode, hlast⟩⟩ := ho.step h (Entering.forms E s d) hp move
  · exact ⟨p', hp', .inl ho'⟩
  obtain ⟨q, hq, hempty⟩ := (hlast.place h hcode).caller hcur
  obtain rfl := Option.some.inj (hq.symm.trans hp)
  rcases move.ran hcode ((Entering.forms E s d).awake _ _ hlast).1 with ⟨junk, run⟩ | ⟨irq, rfl⟩
  · obtain ⟨hprocs, _, hnext⟩ := hlast.last huser (Sys.currentProc_some hcur hp) hd run
    refine ⟨q, (proc_of_procs hprocs l).trans hp, ?_⟩
    rw [codeOf_hart hempty]
    exact hnext.imp_left .base
  · refine ⟨q, hp, .inl ?_⟩
    rw [codeOf_hart hempty]
    refine ⟨irq.code E ++ [.sretKernel], [i], ?_, ?_, hlast⟩
    · show irq.code E ++ .sretKernel :: s.hart.code = _
      simp [hcode]
    · rw [List.all_append, irq_passing]
      rfl

end Osmium
