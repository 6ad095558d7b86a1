import Osmium.Proofs.Follows

namespace Osmium
open Lib Control Site Level

variable {T : Type} {s s' : Sys T}

/-- The code of a process: its context, or what the hart took over from it. -/
def codeOf (s : Sys T) (p : Process T) : List (Instr T) :=
  if p.context.code.isEmpty then s.hart.code else p.context.code

theorem codeOf_hart {p : Process T} (h : p.context.code = []) : codeOf s p = s.hart.code := by
  rw [codeOf, h]
  rfl

theorem codeOf_ctx {p : Process T} (h : p.context.code ≠ []) : codeOf s p = p.context.code := by
  rw [codeOf, if_neg]
  rwa [List.isEmpty_iff]

theorem Control.Code.ne_nil (h : Code (T := T) kroot top S lvl c) : c ≠ [] := by
  cases h <;> exact List.cons_ne_nil _ _

theorem Control.Ctx.ne_nil {q : Process T} (h : Ctx kroot q) : q.context.code ≠ [] := by
  by_cases hz : q.state = .zombie
  · obtain ⟨b, hb⟩ := h.1 hz
    rw [hb]
    exact List.cons_ne_nil _ _
  · exact (h.2 hz).1.ne_nil

/-- The hart runs the code of one process at most: the current one's. -/
theorem Control.Holds.taken (h : Holds S lvl top s) (hq : s.proc j = some q)
    (he : q.context.code = []) : s.current = some j ∧ AtThread s j q := by
  have ht : ∀ {i p}, AtThread s i p → s.current = some j ∧ AtThread s j q := by
    intro i p ht
    by_cases hj : j = i
    · subst hj
      obtain rfl := Option.some.inj (hq.symm.trans ht.here)
      exact ⟨ht.current, ht⟩
    · exact absurd he (ht.contexts j q hq hj).ne_nil
  have hb : AtBoot s → s.current = some j ∧ AtThread s j q :=
    fun hb => absurd he (hb.contexts j q hq).ne_nil
  have hp := h.place
  cases S with
  | thread => obtain ⟨i, p, hat, _⟩ := hp; exact ht hat
  | parted => obtain ⟨i, p, hat, _⟩ := hp; exact ht hat
  | moving => obtain ⟨i, p, hat, _⟩ := hp; exact ht hat
  | user => obtain ⟨i, p, hat, _⟩ := hp; exact ht hat
  | boot | reaping | scanned | picked | ready | returned | restored => exact hb hp.1

theorem Control.Place.caller (h : Place .thread top s) (hcur : s.current = some l) :
    ∃ p, s.proc l = some p ∧ p.context.code = [] := by
  obtain ⟨i, p, hat, _⟩ := h
  obtain rfl := Option.some.inj (hat.current.symm.trans hcur)
  exact ⟨p, hat.here, hat.empty⟩

theorem proc_back {f : Process T → α} (h : (s'.proc j).map f = (s.proc j).map f)
    (hq : s'.proc j = some q') : ∃ q, s.proc j = some q ∧ f q' = f q := by
  rw [hq] at h
  cases hp : s.proc j with
  | none => rw [hp] at h; cases h
  | some q =>
    rw [hp] at h
    exact ⟨q, rfl, Option.some.inj h⟩

/-- The reap loop takes processes away and leaves the others alone. -/
theorem reap_proc (run : Proc.reapLoop E s i = .ok s') (hq : s'.proc j = some q) :
    s.proc j = some q := by
  unfold Proc.reapLoop at run
  split at run
  · rename_i hlt
    simp only [bind_ok, Except.ok.injEq] at run
    obtain ⟨s₁, hr, rfl⟩ := run
    rcases Proc.reap_eq hr with ⟨rfl, _⟩ | ⟨p, _, s₂, _, _, _, _, _, rfl⟩
    · exact hq
    · replace hq : ((s.procs.set _ none)[j]?).join = some q := hq
      rw [Proc.proc_set _ _ _ _ hlt] at hq
      split at hq
      · cases hq
      · exact hq
  · obtain rfl := Except.ok.inj run
    exact hq

theorem reap_sched (run : Proc.reapLoop E s i = .ok s') : s'.schedulerCtx = s.schedulerCtx := by
  unfold Proc.reapLoop at run
  split at run
  · simp only [bind_ok, Except.ok.injEq] at run
    obtain ⟨s₁, hr, rfl⟩ := run
    rcases Proc.reap_eq hr with ⟨rfl, _⟩ | ⟨p, _, s₂, _, _, _, _, hm, rfl⟩
    · rfl
    · show s₂.schedulerCtx = _
      rw [hm]
  · obtain rfl := Except.ok.inj run
    rfl

/-- Publishing adds one process, and changes no other. -/
theorem publish_procs (run : exec E junk s (.publish d) k = .ok s') :
    s'.schedulerCtx = s.schedulerCtx ∧ ∀ j q', s'.proc j = some q' →
      s.proc j = some q' ∨ s.proc j = none ∧ q' = Proc.fresh d := by
  simp only [exec, bind_ok, Except.ok.injEq] at run
  obtain ⟨s₁, hp, rfl⟩ := run
  obtain ⟨s₂, slot, hgrow, hnone, hs₁, hproc, _⟩ := Proc.publish_eq hp
  refine ⟨?_, fun j q' hq => ?_⟩
  · rw [hs₁]
    rcases hgrow with rfl | hgrow
    · rfl
    · exact (Serves.growProcs hgrow).sched
  · replace hq : s₁.proc j = some q' := hq
    rw [hproc j] at hq
    split at hq
    · rename_i hj
      exact .inr ⟨hj ▸ hnone, (Option.some.inj hq).symm⟩
    · exact .inl hq

/-- Code that is switched to was left behind a `push_off`. -/
theorem switch_held (h : Holds S lvl top s) (hcode : s.hart.code = i :: k) (run : exec E junk s i k = .ok s')
    (hsw : i.switches = true) : ∃ S' top', Code s.kernelRoot top' S' .held s'.hart.code := by
  cases i with
  | sched =>
    obtain ⟨_, l, p, hat⟩ := h.at_sched hcode
    obtain ⟨_, l', p', _, _, _, rfl⟩ := Proc.sched_eq run
    obtain ⟨top', hback⟩ := hat.back
    exact ⟨_, top', hback⟩
  | swtchTo =>
    obtain ⟨rfl, _⟩ := h.leads hcode
    obtain ⟨hb, halone, _, p, hp, hrun, _⟩ := h.place
    obtain ⟨p', hp', rfl⟩ := Proc.swtchTo_eq run
    obtain rfl := Option.some.inj (hp.symm.trans hp')
    exact ⟨_, _, ((hb.contexts _ p hp).2 (by rw [hrun]; exact State.noConfusion)).1⟩
  | _ => cases hsw

/-- The code of a thread across one piece of kernel code: left alone, or moved on
because it is the thread's own piece. -/
theorem exec_threads (h : Holds S lvl top s) (hcode : s.hart.code = i :: k)
    (run : exec E junk s i k = .ok s') (hq : s'.proc j = some q') :
    (∃ q, s.proc j = some q ∧ (codeOf s' q' = codeOf s q ∨ s.current = some j ∧
      codeOf s q = i :: k ∧ Follows E s i k (codeOf s' q'))) ∨
    ∃ d, i = .publish d ∧ s.proc j = none ∧ q' = Proc.fresh d := by
  have ht := exec_turns hcode run
  by_cases hs : i.saves = false
  · -- contexts stay; only the hart's code moves
    obtain ⟨q, hp, he⟩ := proc_back ((ht.ctx hs).procs j) hq
    refine .inl ⟨q, hp, ?_⟩
    by_cases hn : q.context.code = []
    · have hsw : i.switches = false := by cases i <;> first | rfl | cases hs
      rw [codeOf_hart hn, codeOf_hart (he.trans hn)]
      exact .inr ⟨(h.taken hp hn).1, hcode, ht.code hsw⟩
    · rw [codeOf_ctx hn, codeOf_ctx (he ▸ hn)]
      exact .inl he
  · cases i with
    | sched =>
      obtain ⟨_, l, p, hat⟩ := h.at_sched hcode
      obtain ⟨_, l', p', hcur, _, _, rfl⟩ := Proc.sched_eq run
      obtain rfl := Option.some.inj (hcur.symm.trans hat.current)
      replace hq : (s.setProc l' _).proc j = some q' := hq
      rw [Sys.proc_setProc] at hq
      split at hq
      · rename_i hj
        subst hj
        rw [hat.here] at hq
        obtain rfl := Option.some.inj hq
        refine .inl ⟨p, hat.here, .inr ⟨hcur, ?_, ?_⟩⟩
        · rw [codeOf_hart hat.empty, hcode]
        · rw [codeOf_ctx (List.cons_ne_nil _ _)]
          exact .sched
      · rename_i hj
        refine .inl ⟨q', hq, .inl ?_⟩
        have hne := (hat.contexts j q' hq hj).ne_nil
        rw [codeOf_ctx hne, codeOf_ctx hne]
    | swtchTo =>
      have hb := (h.at_swtchTo hcode).2
      obtain ⟨p, hp, rfl⟩ := Proc.swtchTo_eq run
      replace hq : (s.setProc _ _).proc j = some q' := hq
      rw [Sys.proc_setProc] at hq
      split at hq
      · rename_i hj
        subst hj
        rw [hp] at hq
        obtain rfl := Option.some.inj hq
        refine .inl ⟨p, hp, .inl ?_⟩
        rw [codeOf_hart rfl, codeOf_ctx (hb.contexts _ p hp).ne_nil]
      · refine .inl ⟨q', hq, .inl ?_⟩
        have hne := (hb.contexts j q' hq).ne_nil
        rw [codeOf_ctx hne, codeOf_ctx hne]
    | publish d =>
      rcases (publish_procs run).2 j q' hq with hold | ⟨hnone, hfresh⟩
      · refine .inl ⟨q', hold, ?_⟩
        by_cases hn : q'.context.code = []
        · rw [codeOf_hart hn, codeOf_hart hn]
          exact .inr ⟨(h.taken hold hn).1, hcode, ht.code rfl⟩
        · rw [codeOf_ctx hn, codeOf_ctx hn]
          exact .inl rfl
      · exact .inr ⟨d, rfl, hnone, hfresh⟩
    | reap =>
      have hb := (h.at_reap hcode).1
      have hold : s.proc j = some q' := reap_proc run hq
      have hne := (hb.contexts j q' hold).ne_nil
      refine .inl ⟨q', hold, .inl ?_⟩
      rw [codeOf_ctx hne, codeOf_ctx hne]
    | _ => exact absurd rfl hs

/-- Where the saved contexts come from, and where the hart's code after a
switch. -/
theorem exec_contexts (hcode : s.hart.code = i :: k) (run : exec E junk s i k = .ok s') :
    (∀ j q', s'.proc j = some q' → q'.context.code = [] ∨ q'.context.code = Proc.threadEntry ∨
      (∃ q, s.proc j = some q ∧ q'.context.code = q.context.code) ∨
      i = .sched ∧ q'.context.code = .setIntena s.hart.intena :: k) ∧
    (s'.schedulerCtx.code = s.schedulerCtx.code ∨ s'.schedulerCtx.code = [] ∨
      i.switches = true ∧ s'.schedulerCtx.code = k) ∧
    (i.switches = true → s'.hart.code = s.schedulerCtx.code ∨
      ∃ j q, s.proc j = some q ∧ s'.hart.code = q.context.code) := by
  have ht := exec_turns hcode run
  by_cases hs : i.saves = false
  · have hctx := ht.ctx hs
    have hsw : i.switches = false := by cases i <;> first | rfl | cases hs
    refine ⟨fun j q' hq => .inr (.inr (.inl (proc_back (hctx.procs j) hq))), .inl hctx.sched, ?_⟩
    rw [hsw]
    exact nofun
  · cases i with
    | sched =>
      obtain ⟨_, l, p, _, hp, _, rfl⟩ := Proc.sched_eq run
      refine ⟨fun j q' hq => ?_, .inr (.inl rfl), fun _ => .inl rfl⟩
      replace hq : (s.setProc l _).proc j = some q' := hq
      rw [Sys.proc_setProc] at hq
      split at hq
      · rename_i hj
        rw [hj, hp] at hq
        obtain rfl := Option.some.inj hq
        exact .inr (.inr (.inr ⟨rfl, rfl⟩))
      · exact .inr (.inr (.inl ⟨q', hq, rfl⟩))
    | swtchTo =>
      obtain ⟨p, hp, rfl⟩ := Proc.swtchTo_eq run
      refine ⟨fun j q' hq => ?_, .inr (.inr ⟨rfl, rfl⟩), fun _ => .inr ⟨_, p, hp, rfl⟩⟩
      replace hq : (s.setProc _ _).proc j = some q' := hq
      rw [Sys.proc_setProc] at hq
      split at hq
      · rename_i hj
        rw [hj, hp] at hq
        obtain rfl := Option.some.inj hq
        exact .inl rfl
      · exact .inr (.inr (.inl ⟨q', hq, rfl⟩))
    | publish =>
      obtain ⟨hsched, hprocs⟩ := publish_procs run
      refine ⟨fun j q' hq => ?_, .inl (congrArg Context.code hsched), fun hsw => by cases hsw⟩
      rcases hprocs j q' hq with hold | ⟨_, rfl⟩
      · exact .inr (.inr (.inl ⟨q', hold, rfl⟩))
      · exact .inr (.inl rfl)
    | reap =>
      refine ⟨fun j q' hq => .inr (.inr (.inl ⟨q', reap_proc run hq, rfl⟩)), .inl ?_,
        fun hsw => by cases hsw⟩
      exact congrArg Context.code (reap_sched run)
    | _ => exact absurd rfl hs

/-- How the code of the running thread can change in one move of the machine. -/
inductive Advances (E : Env) (s : Sys T) : List (Instr T) → List (Instr T) → Prop where
  | run (follows : Follows E s i k c) : Advances E s (i :: k) c
  | call (op : Op T) : Advances E s [.body] (op.code E ++ [.body])
  | leave : Advances E s [.body] [.exit]
  | interrupt (irq : Irq) (on : s.hart.sie = true) :
      Advances E s c (irq.code E ++ .sretKernel :: c)
  | userInterrupt (irq : Irq) :
      Advances E s [.umode] (irq.code E ++ [.trapRet (Trap.frameOf s.hart)])
  | userTrap (cause stval : Nat) :
      Advances E s [.umode] [.kerneltrap (Trap.frameOf s.hart) cause stval]

/-- A move that changes no context. -/
theorem threads_of_hart (h : Holds S lvl top s) (hctx : SameCtx s s')
    (hadv : s'.hart.code = s.hart.code ∨ Advances E s s.hart.code s'.hart.code)
    (hq : s'.proc j = some q') :
    ∃ q, s.proc j = some q ∧ (codeOf s' q' = codeOf s q ∨ s.current = some j ∧
      codeOf s q = s.hart.code ∧ Advances E s s.hart.code (codeOf s' q')) := by
  obtain ⟨q, hp, he⟩ := proc_back (hctx.procs j) hq
  refine ⟨q, hp, ?_⟩
  by_cases hn : q.context.code = []
  · rw [codeOf_hart hn, codeOf_hart (he.trans hn)]
    exact hadv.imp_right (fun ha => ⟨(h.taken hp hn).1, rfl, ha⟩)
  · rw [codeOf_ctx hn, codeOf_ctx (he ▸ hn)]
    exact .inl he

theorem step_threads (h : Holds S lvl top s) (move : Step E s s') (hq : s'.proc j = some q') :
    (∃ q, s.proc j = some q ∧ (codeOf s' q' = codeOf s q ∨ s.current = some j ∧
      codeOf s q = s.hart.code ∧ Advances E s s.hart.code (codeOf s' q'))) ∨
    s.proc j = none ∧ ∃ d, q' = Proc.fresh d := by
  cases move with
  | exec junk code run =>
    rcases exec_threads h code run hq with ⟨q, hp, hc⟩ | ⟨d, _, hn, hd⟩
    · refine .inl ⟨q, hp, hc.imp_right ?_⟩
      rintro ⟨hcur, hcode, hf⟩
      rw [code]
      exact ⟨hcur, hcode, .run hf⟩
    · exact .inr ⟨hn, d, hd⟩
  | call op code =>
    obtain ⟨_, _, rfl⟩ := h.leads code
    refine .inl (threads_of_hart h (sameCtx_goto _ _) (.inr ?_) hq)
    rw [code]
    exact .call op
  | leave code =>
    obtain ⟨_, _, rfl⟩ := h.leads code
    refine .inl (threads_of_hart h (sameCtx_goto _ _) (.inr ?_) hq)
    rw [code]
    exact .leave
  | bootCall op _ code =>
    -- `kmain` is no thread: every context is saved
    obtain ⟨rfl, _, rfl⟩ := h.leads code
    obtain ⟨hb, _⟩ := h.place
    have hne := (hb.contexts j q' hq).ne_nil
    exact .inl ⟨q', hq, .inl (by rw [codeOf_ctx hne, codeOf_ctx hne])⟩
  | bootDone code =>
    obtain ⟨rfl, _, rfl⟩ := h.leads code
    obtain ⟨hb, _⟩ := h.place
    have hne := (hb.contexts j q' hq).ne_nil
    exact .inl ⟨q', hq, .inl (by rw [codeOf_ctx hne, codeOf_ctx hne])⟩
  | interrupt irq on kernel =>
    exact .inl (threads_of_hart h ⟨rfl, fun _ => rfl⟩ (.inr (.interrupt irq on)) hq)
  | userInterrupt irq code =>
    obtain ⟨_, _, rfl⟩ := h.leads code
    refine .inl (threads_of_hart h ⟨rfl, fun _ => rfl⟩ (.inr ?_) hq)
    rw [code]
    exact .userInterrupt irq
  | userAlu regs pc _ code => exact .inl (threads_of_hart h ⟨rfl, fun _ => rfl⟩ (.inl rfl) hq)
  | userStore va pa b code _ =>
    exact .inl (threads_of_hart h ⟨rfl, fun _ => rfl⟩ (.inl rfl) hq)
  | userTrap cause stval _ code _ =>
    obtain ⟨_, _, rfl⟩ := h.leads code
    refine .inl (threads_of_hart h ⟨rfl, fun _ => rfl⟩ (.inr ?_) hq)
    rw [code]
    exact .userTrap cause stval

/-- Code that only a process with an address space of its own runs. -/
def Instr.user : Instr T → Bool
  | .fetchUser | .fetchFork | .userEntry .. | .umode | .kerneltrap .. | .fork _ | .execCommit ..
  | .loadImage _ .exec | .loadText _ _ _ .exec | .loadStack _ _ .exec | .getcharLoop (.user ..)
  | .getcharCheck (.user ..) | .gotChar (.user ..) _ | .freeUserTable _ => true
  | i => i.drops

theorem Instr.user_of_drops {i : Instr T} (h : i.drops = true) : i.user = true := by
  cases i <;> first | rfl | cases h

/-- Code without any of it. -/
def KernelCode (c : List (Instr T)) : Prop := c.all (fun x => !x.user) = true

theorem KernelCode.append {c c' : List (Instr T)} (h : KernelCode c) (h' : KernelCode c') :
    KernelCode (c ++ c') := by
  unfold KernelCode at *
  rw [List.all_append, h, h']
  rfl

theorem KernelCode.mem {c : List (Instr T)} (h : KernelCode c) (hx : x ∈ c) : x.user = false := by
  simpa using List.all_eq_true.mp h x hx

theorem KernelCode.tail {c : List (Instr T)} (h : KernelCode (x :: c)) : KernelCode c :=
  (Bool.and_eq_true_iff.mp h).2

/-- A thread of the kernel runs none of it. -/
def Manned (s : Sys T) : Prop :=
  ∀ j p, s.proc j = some p → p.userTable = none → KernelCode (codeOf s p)

theorem op_kernel (E : Env) (op : Op T) : KernelCode (op.code E) := by cases op <;> rfl

theorem irq_kernel (E : Env) (irq : Irq) : KernelCode (T := T) (irq.code E) := by
  cases irq with
  | timer => rfl
  | uart bytes =>
    induction bytes with
    | nil => rfl
    | cons b bytes ih =>
      rw [Irq.code, List.flatMap_cons]
      exact KernelCode.append (c := Console.onInput E b) rfl ih

/-- Kernel code goes on with kernel code. -/
theorem Follows.kernel (h : Follows E s i k c) (hi : i.user = false) (hk : KernelCode k)
    (hentry : ∀ j p, s.currentProc = some (j, p) → p.entry = .kernel) : KernelCode c := by
  have hfront : ∀ a : List (Instr T), KernelCode a → KernelCode (a ++ k) := fun a ha => ha.append hk
  cases h with
  | plain | noYield | tickDone | tickOver => exact hk
  | idle =>
    refine hfront [i] ?_
    unfold KernelCode
    simp [hi]
  | drop hd => rw [Instr.user_of_drops hd] at hi; cases hi
  | fetchUser | fetchFork | userEntry | trapBreak | trapCall | trapServed | trapKill | read
  | execCommit | fork | forkNone | loadExec => cases hi
  | getchar r =>
    cases r with
    | kernel => exact hfront (Console.getcharCode .kernel) rfl
    | user => cases hi
  | getcharSleep r =>
    cases r with
    | kernel => exact hfront [_, .sleepMark _, .sched, .popOff, .getcharLoop .kernel] rfl
    | user => cases hi
  | getcharGot r =>
    cases r with
    | kernel => exact hfront [_, _, .gotChar .kernel _] rfl
    | user => cases hi
  | loadImage =>
    rename_i prog fin _
    cases fin with
    | spawn => exact hfront [.loadText _ _ _ .spawn] rfl
    | exec => cases hi
  | loadText =>
    rename_i prog _ fin _
    cases fin with
    | spawn => exact hfront [.loadText _ _ _ .spawn] rfl
    | exec => cases hi
  | loadedText =>
    rename_i prog _ fin _
    cases fin with
    | spawn => exact hfront [.loadStack _ _ .spawn] rfl
    | exec => cases hi
  | loadSpawn => exact hfront [.spawnUser _ _] rfl
  | sched => exact hfront [.setIntena _] rfl
  | noPreempt | joined => exact hfront [.popOff] rfl
  | sleepTicks => exact hfront [.tickWhile _] rfl
  | yieldBody => exact hfront [.sched] rfl
  | join pid => exact hfront [.pushOff, .joinCheck pid] rfl
  | tickSleep => exact hfront (Proc.sleep .tick) rfl
  | pass a => exact hfront [.release _, .popOff] rfl
  | wait a => exact hfront (Sync.waitCode a) rfl
  | block a => exact hfront [.sched, .popOff, .wait a] rfl
  | spawn d | spawnUser d => exact hfront (Proc.publishing d) rfl
  | preempt => exact hfront (.popOff :: Proc.yieldNow) rfl
  | joinSleep pid => exact hfront [.sleepMark _, .sched, .popOff, .join pid] rfl
  | tickAgain n => exact hfront [.pushOff, .tickIf n, .popOff, .tickWhile n] rfl
  | fetchEntry hc =>
    rw [hentry _ _ hc]
    rfl
  | exit | reapNext | reapDone | schedLoop | pickNone | pick => rfl

/-- A process that has no space of its own never had one. -/
theorem step_heirs (move : Step E s s') (hq : s'.proc j = some q') :
    (∃ q, s.proc j = some q ∧ (static q' = static q ∨ s.current = some j ∧
      ∃ prog table, q' = Proc.takeSpace prog table q)) ∨
    s.proc j = none ∧ ∃ d k, q' = Proc.fresh d ∧ s.hart.code = .publish d :: k := by
  cases move with
  | exec junk code run =>
    have hh := (exec_turns code run).heirs j
    rw [hq] at hh
    generalize ho : s.proc j = o at hh
    cases hh with
    | same same =>
      cases o with
      | none => cases same
      | some q => exact .inl ⟨q, rfl, .inl (Option.some.inj same)⟩
    | exec piece caller => exact .inl ⟨_, rfl, .inr ⟨caller, _, _, rfl⟩⟩
    | born piece => exact .inr ⟨rfl, _, _, rfl, by rw [code, piece]⟩
  | _ => exact .inl ⟨q', hq, .inl rfl⟩

theorem step_manned (h : Holds S lvl top s) (hm : Manned s)
    (hseat : ∀ j p, s.proc j = some p → p.userTable = none → p.entry = .kernel)
    (move : Step E s s') : Manned s' := by
  intro j q' hq hnone
  have hentry : ∀ q, s.proc j = some q → q.userTable = none → s.current = some j →
      ∀ l p, s.currentProc = some (l, p) → p.entry = .kernel := by
    intro q hp hn hcur l p hc
    obtain ⟨h1, h2⟩ := Sys.currentProc_eq hc
    obtain rfl := Option.some.inj (hcur.symm.trans h1)
    exact hseat _ _ h2 (by rw [Option.some.inj (h2.symm.trans hp)]; exact hn)
  have hold : ∀ q, s.proc j = some q → q.userTable = none := by
    intro q hp
    rcases step_heirs move hq with ⟨q₁, hp₁, hs | ⟨_, _, _, rfl⟩⟩ | ⟨hn, _⟩
    · obtain rfl := Option.some.inj (hp.symm.trans hp₁)
      exact (congrArg ProcData.userTable hs).symm.trans hnone
    · cases hnone
    · rw [hp] at hn
      cases hn
  rcases step_threads h move hq with ⟨q, hp, hc | ⟨hcur, hcode, hadv⟩⟩ | ⟨_, d, rfl⟩
  · rw [hc]
    exact hm j q hp (hold q hp)
  · have hall := hm j q hp (hold q hp)
    rw [hcode] at hall
    generalize s.hart.code = c₀ at hadv hall
    generalize codeOf s' q' = c at hadv
    cases hadv with
    | run hf =>
      exact hf.kernel (hall.mem List.mem_cons_self) hall.tail (hentry q hp (hold q hp) hcur)
    | call op => exact (op_kernel E op).append hall
    | leave => rfl
    | interrupt irq => exact (irq_kernel E irq).append (.append (c := [.sretKernel]) rfl hall)
    | userInterrupt | userTrap => exact absurd (hall.mem List.mem_cons_self) nofun
  · rw [codeOf_ctx (fresh_ctx 0 d).ne_nil]
    rfl

end Osmium
