import Osmium.Proofs.ControlStep

namespace Osmium.Control
open Lib Site Level

variable {T : Type} {s s' : Sys T}

/-- Kernel work for the current process that goes on in its system call. -/
def Lands (s s' : Sys T) : Prop :=
  ∃ s₁ c, Serves s s₁ ∧ s' = s₁.goto c ∧
    (c.all (fun x => decide (x.load = .inert ∨ x.load = .space)) = true) ∧
    ∀ kroot top, Code kroot top thread (nest 0 false) c

theorem lands_ret (h : Serves s s₁) (f : TrapFrame) (n : Nat) :
    Lands s (s₁.goto [.sysRet f n]) := ⟨s₁, _, h, rfl, rfl, fun _ _ => .sysRet⟩

theorem sysRead_lands (run : Syscall.sysRead s f ptr len = .ok s') : Lands s s' := by
  unfold Syscall.sysRead at run
  split at run
  · obtain rfl := Except.ok.inj run
    exact lands_ret (.refl s) f 0
  · simp only [bind_ok, Except.ok.injEq] at run
    obtain ⟨⟨b, s₁⟩, ha, rfl⟩ := run
    exact ⟨s₁, _, .of_mem (.alloc ha), rfl, rfl, fun _ _ => .getcharUser⟩

theorem sysExec_lands (run : Syscall.sysExec s f ptr len = .ok s') : Lands s s' := by
  simp only [Syscall.sysExec, bind_ok] at run
  obtain ⟨⟨r, s₁⟩, hn, h⟩ := run
  rcases r with _ | ⟨prog, b⟩
  · obtain rfl := Except.ok.inj h
    exact lands_ret (.of_mem (.withName hn)) f _
  · obtain rfl := Except.ok.inj h
    exact ⟨s₁, _, .of_mem (.withName hn), rfl, rfl, fun _ _ => .execImage⟩

theorem readRest_lands (run : Syscall.readRest s f ptr cap buf byte = .ok s') :
    Lands { s with input := (Syscall.drain s (cap - 1)).2.input } s' := by
  simp only [Syscall.readRest, bind_ok, Except.ok.injEq] at run
  obtain ⟨⟨n, s₁⟩, hc, s₂, hd, rfl⟩ := run
  rw [Syscall.drain_eq] at hc
  exact lands_ret ((Serves.of_mem (.copyOut hc)).trans (.of_mem (.dealloc hd))) f n

/-- Every call stays inside the system call it was made for. -/
theorem dispatch_lands (run : Syscall.dispatch E s f = .ok s') : Lands s s' := by
  simp only [Syscall.dispatch, bind_ok] at run
  obtain ⟨sepc, _, run⟩ := run
  have hret : ∀ {x : Except Panic (Nat × Sys T)} {f : TrapFrame},
      (∀ n s₁, x = .ok (n, s₁) → Serves s s₁) →
      ((fun (p : Nat × Sys T) => p.2.goto [.sysRet f p.1]) <$> x) = .ok s' → Lands s s' := by
    intro x f hx hr
    cases x with
    | error e => cases hr
    | ok p =>
      obtain rfl := Except.ok.inj hr
      exact lands_ret (hx p.1 p.2 rfl) f p.1
  split at run
  · exact hret (fun n s₁ h => .of_mem (.sysWrite h)) run
  · obtain rfl := Except.ok.inj run
    exact ⟨s, _, .refl s, rfl, rfl, fun _ _ => .exit⟩
  · obtain rfl := Except.ok.inj run
    exact ⟨s, _, .refl s, rfl, rfl, fun _ _ => Code.yieldNow rfl .sysRet⟩
  · obtain rfl := Except.ok.inj run
    exact lands_ret (.refl s) _ _
  · exact sysRead_lands run
  · exact hret (fun n s₁ h => .of_mem (.copyOut h)) run
  · exact hret (fun n s₁ h => .sysOpen h) run
  · exact hret (fun n s₁ h => .sysFread h) run
  · obtain rfl := Except.ok.inj run
    exact lands_ret (.sbrk s _) _ _
  · obtain rfl := Except.ok.inj run
    exact ⟨s, _, .refl s, rfl, rfl, fun _ _ => .fork⟩
  · obtain rfl := Except.ok.inj run
    exact ⟨s, _, .refl s, rfl, rfl, fun _ _ => .join .sysRet⟩
  · exact sysExec_lands run
  · obtain rfl := Except.ok.inj run
    exact lands_ret (.fdClose s _) _ _
  · obtain rfl := Except.ok.inj run
    exact ⟨s, _, .refl s, rfl, rfl, fun _ _ => .sleepTicks .sysRet⟩
  · obtain rfl := Except.ok.inj run
    exact lands_ret (.refl s) _ _

theorem kerneltrap_lands (run : Trap.kerneltrap E s f cause stval = .ok s') : Lands s s' := by
  unfold Trap.kerneltrap at run
  split at run
  · simp only [bind_ok, Except.ok.injEq] at run
    obtain ⟨_, _, _, _, rfl⟩ := run
    exact ⟨s, _, .refl s, rfl, rfl, fun _ _ => .trapRet⟩
  · split at run
    · exact dispatch_lands run
    · split at run
      · simp only [bind_ok] at run
        obtain ⟨⟨b, s₁⟩, hf, run⟩ := run
        cases b with
        | true =>
          obtain rfl := Except.ok.inj run
          exact ⟨s₁, _, .of_mem (.servicePageFault hf), rfl, rfl, fun _ _ => .trapRet⟩
        | false =>
          obtain rfl := Except.ok.inj run
          exact ⟨s₁, _, .of_mem (.servicePageFault hf), rfl, rfl, fun _ _ => .exit⟩
      · obtain rfl := Except.ok.inj run
        exact ⟨s, _, .refl s, rfl, rfl, fun _ _ => .exit⟩

theorem Holds.lands (h : Holds thread (nest 0 false) top s) (hl : Lands s s') : Controlled s' := by
  obtain ⟨s₁, c, hs, rfl, _, hc⟩ := hl
  exact h.served hs (hc _ _)

/-- No interrupt bookkeeping in a change of table. -/
theorem switchTo_eq (run : Proc.switchTo s root = .ok s') :
    root ≠ 0 ∧ s' = { s with hart := { s.hart with satp := root } } := by
  unfold Proc.switchTo at run
  split at run
  · cases run
  · rename_i h
    exact ⟨h, (Except.ok.inj run).symm⟩

theorem acquire_eq (run : Spinlock.acquire s l = .ok s') :
    s.locked l = false ∧ s' = { s with
      hart := Spinlock.pushOff s.hart
      locked := fun l' => if l' = l then true else s.locked l' } := by
  unfold Spinlock.acquire at run
  split at run
  · cases run
  · rename_i h
    exact ⟨by simpa using h, (Except.ok.inj run).symm⟩

theorem semCheck_eq (run : Sync.semCheck E s a k = .ok s') :
    (0 < (s.sem a).count ∧ s' = { s with
        sem := fun b => if b = a then
            { s.sem a with count := (s.sem a).count - 1, passed := (s.sem a).passed + 1 }
          else s.sem b }.goto (.release (.count a) :: .popOff :: k)) ∨
      ((s.sem a).count = 0 ∧ ∃ s₁ s₂, Spinlock.release s (.count a) = .ok s₁ ∧
        Proc.setState s₁ (.sleeping (Sync.chanOf E a)) = .ok s₂ ∧
        s' = s₂.goto (.sched :: .popOff :: .wait a :: k)) := by
  unfold Sync.semCheck at run
  dsimp only at run
  split at run
  · rename_i hc
    exact .inl ⟨hc, (Except.ok.inj run).symm⟩
  · rename_i hc
    simp only [bind_ok, Except.ok.injEq] at run
    obtain ⟨s₁, h1, s₂, h2, rfl⟩ := run
    exact .inr ⟨by omega, s₁, s₂, h1, h2, rfl⟩

theorem release_eq (run : Spinlock.release s l = .ok s') :
    ∃ h, Spinlock.popOff s.hart = .ok h ∧ s' = { s with
      hart := h
      locked := fun l' => if l' = l then false else s.locked l' } := by
  simp only [Spinlock.release, bind_ok, Except.ok.injEq] at run
  obtain ⟨h, hp, rfl⟩ := run
  exact ⟨h, hp, rfl⟩

theorem wakeAll_standing (s : Sys T) (chan j : Nat) :
    ((Proc.wakeAll s chan).proc j).map standing = (s.proc j).map standing := by
  unfold Proc.wakeAll Sys.proc
  rw [List.getElem?_map]
  rcases s.procs[j]? with _ | _ | p
  · rfl
  · rfl
  · refine congrArg some ?_
    unfold Proc.wakeProc
    split
    · rename_i hp
      simp [standing, hp]
    · rfl

theorem Holds.input (h : Holds S lvl top s) (x : Input) : Holds S lvl top { s with input := x } :=
  ⟨h.reads, h.deep, h.place.same ⟨fun _ => rfl, rfl, rfl, rfl, rfl, rfl, rfl⟩, h.code⟩

theorem Holds.getcharCheck (h : Holds thread (nest 2 q) top s)
    (got : ∀ byte, Code s.kernelRoot top thread (nest 0 q) (.gotChar r byte :: k))
    (again : Code s.kernelRoot top thread (nest 0 q) (.getcharLoop r :: k)) :
    Controlled (Console.getcharCheck s r k) := by
  rcases Console.getcharCheck_eq s r k with ⟨_, he⟩ | ⟨_, he⟩
  · rw [he]
    exact h.goto (.release rfl (Code.sleep (.popOff (.inl rfl) again)))
  · rw [he]
    exact (h.input _).goto (.release rfl (.popOff (.inl rfl) (got _)))

theorem Holds.loadImage (h : Holds S lvl top s) (run : Proc.loadImage E s prog fin k = .ok s')
    (hc : ∀ t, Code s.kernelRoot top S lvl (.loadText prog t 0 fin :: k)) : Controlled s' := by
  unfold Proc.loadImage at run
  split at run
  · cases run
  · simp only [bind_ok, Except.ok.injEq] at run
    obtain ⟨⟨t, P⟩, _, rfl⟩ := run
    exact h.served (.of_mem (.phys s P)) (hc t)

theorem Holds.loadText (h : Holds S lvl top s) (run : Proc.loadText E s prog t i fin k = .ok s')
    (more : Code s.kernelRoot top S lvl (.loadText prog t (i + 1) fin :: k))
    (done : Code s.kernelRoot top S lvl (.loadStack prog t fin :: k)) : Controlled s' := by
  unfold Proc.loadText at run
  split at run
  · simp only [bind_ok, Except.ok.injEq] at run
    obtain ⟨P, _, rfl⟩ := run
    exact h.served (.of_mem (.phys s P)) more
  · obtain rfl := Except.ok.inj run
    exact h.goto done

theorem Holds.loadStack (h : Holds S lvl top s) (run : Proc.loadStack s prog t fin k = .ok s')
    (hc : Code s.kernelRoot top S lvl
      ((match fin with | .spawn => .spawnUser prog t | .exec => .execCommit prog t) :: k)) :
    Controlled s' := by
  simp only [Proc.loadStack, bind_ok, Except.ok.injEq] at run
  obtain ⟨⟨stack, P₁⟩, _, P, _, rfl⟩ := run
  exact h.served (.of_mem (.phys s P)) hc

theorem fork_lands (run : Proc.fork E s f = .ok s') : Lands s s' := by
  unfold Proc.fork at run
  split at run
  · obtain rfl := Except.ok.inj run
    exact lands_ret (.refl s) f _
  · simp only [bind_ok, Except.ok.injEq] at run
    obtain ⟨⟨child, P⟩, _, ⟨b, s₁⟩, ha, ⟨d, s₂⟩, hs, rfl⟩ := run
    have h1 : Serves s s₁ := (Serves.of_mem (.phys s P)).trans (.of_mem (.alloc ha))
    exact ⟨s₂, _, h1.trans (.spawnWith hs), rfl, rfl, fun _ _ => Code.publishing rfl .sysRet⟩

/-- The current process is the one whose stack the hart is on. -/
theorem Holds.kstackTop (h : Holds thread lvl top s) (hc : s.currentProc = some (i, p)) :
    p.kstackTop = top := by
  obtain ⟨hcur, hp⟩ := Sys.currentProc_eq hc
  obtain ⟨i', p', ht, _, ⟨ho, _, _⟩, _⟩ := h.place
  obtain rfl := Option.some.inj (hcur.symm.trans ht.current)
  obtain rfl := Option.some.inj (hp.symm.trans ht.here)
  exact ho

/-- Every piece of kernel code keeps the control state sound. The cases are the
rules of `Code`. -/
theorem exec_controlled (h : Holds S lvl top s) (hcode : s.hart.code = i :: k)
    (tab : ∀ j q, s.proc j = some q → q.pageTable = q.userTable.getD s.kernelRoot)
    (run : exec E junk s i k = .ok s') : Controlled s' := by
  have hc := h.code
  rw [hcode] at hc
  cases hc with
  | pushOff site rest =>
    obtain rfl := Except.ok.inj run
    exact h.push rest
  | popOff site rest =>
    simp only [exec, bind_ok, Except.ok.injEq] at run
    obtain ⟨hart, hp, rfl⟩ := run
    exact h.pop hp site rest
  | popHeld site rest =>
    simp only [exec, bind_ok, Except.ok.injEq] at run
    obtain ⟨hart, hp, rfl⟩ := run
    exact h.irq (popOff_place hp) (popOff_held h.reads hp) (fun hd => open_deep site hd) rest
  | intrOn site rest =>
    obtain rfl := Except.ok.inj run
    exact h.irq ⟨rfl, rfl, rfl⟩ (show (nest 0 true).Reads _ from ⟨h.reads.1, rfl⟩)
      (fun hd => open_deep site hd) rest
  | intrOnLoose site rest =>
    obtain rfl := Except.ok.inj run
    exact h.irq ⟨rfl, rfl, rfl⟩ (show (nest 0 true).Reads _ from ⟨h.reads, rfl⟩)
      (fun hd => open_deep site hd) rest
  | intrOff rest =>
    obtain rfl := Except.ok.inj run
    exact h.irq ⟨rfl, rfl, rfl⟩ (show (nest 0 false).Reads _ from ⟨h.reads.1, rfl⟩)
      (fun hd => Bool.noConfusion hd) rest
  | intrOffMoving rest =>
    obtain rfl := Except.ok.inj run
    exact h.irq ⟨rfl, rfl, rfl⟩ (show (nest 0 false).Reads _ from ⟨h.reads.1, rfl⟩)
      (fun hd => Bool.noConfusion hd) rest
  | setIntena rest =>
    obtain rfl := Except.ok.inj run
    exact h.irq ⟨rfl, rfl, rfl⟩ (show (nest 1 _).Reads _ from ⟨h.reads.1, h.reads.2, rfl⟩)
      (fun hd => Bool.noConfusion hd) rest
  | acquire site rest =>
    simp only [exec, bind_ok, Except.ok.injEq] at run
    obtain ⟨s₁, ha, rfl⟩ := run
    obtain ⟨_, rfl⟩ := acquire_eq ha
    exact h.next ⟨fun _ => rfl, rfl, rfl, rfl, rfl, rfl, rfl⟩
      ((pushOff_reads h.reads).congr rfl rfl rfl) (fun hd => open_deep site hd) rest
  | release site rest =>
    simp only [exec, bind_ok, Except.ok.injEq] at run
    obtain ⟨s₁, ha, rfl⟩ := run
    obtain ⟨hart, hp, rfl⟩ := release_eq ha
    obtain ⟨e1, e2, e3⟩ := popOff_place hp
    exact h.next ⟨fun _ => rfl, rfl, rfl, rfl, e1, e2, e3⟩
      ((popOff_reads h.reads hp).congr rfl rfl rfl) (fun hd => open_deep site hd) rest
  | sched rest => exact h.leave rest run
  | schedLast => exact h.leave rfl run
  | yieldBody site rest =>
    simp only [exec, Proc.yieldBody] at run
    split at run
    · obtain rfl := Except.ok.inj run
      exact h.goto rest
    · rename_i i hcur
      simp only [bind_ok, Except.ok.injEq] at run
      obtain ⟨s₁, hs, rfl⟩ := run
      cases S with
      | thread => exact Holds.part h.place h.reads hs State.noConfusion (by simp) (.sched rest)
      | boot => rw [h.place.2.1] at hcur; cases hcur
      | _ => cases site
  | tickCheck site rest =>
    simp only [exec, Proc.tickCheck] at run
    split at run
    · obtain rfl := Except.ok.inj run
      exact h.goto (.popOff (.inl site) rest)
    · split at run
      · cases run
      · split at run
        · obtain rfl := Except.ok.inj run
          exact h.goto (.popOff (.inl site) (Code.yieldNow site rest))
        · obtain rfl := Except.ok.inj run
          exact h.goto (.popOff (.inl site) rest)
  | sleepMark rest =>
    simp only [exec, bind_ok, Except.ok.injEq] at run
    obtain ⟨s₁, hs, rfl⟩ := run
    exact Holds.part h.place h.reads hs State.noConfusion (by simp) rest
  | wakeAll rest =>
    obtain rfl := Except.ok.inj run
    exact h.next ⟨wakeAll_standing s _, rfl, rfl, rfl, rfl, rfl, rfl⟩
      (h.reads.congr rfl rfl rfl) h.deep rest
  | exit =>
    obtain rfl := Except.ok.inj run
    exact h.goto Code.exitCode
  | exitMark rest =>
    simp only [exec, bind_ok, Except.ok.injEq] at run
    obtain ⟨s₁, hs, rfl⟩ := run
    exact Holds.part h.place h.reads hs State.noConfusion (by simp) rest
  | join rest =>
    obtain rfl := Except.ok.inj run
    exact h.goto (.pushOff (.inl rfl) (.joinCheck rest))
  | joinCheck rest =>
    obtain rfl := Except.ok.inj run
    unfold Proc.joinCheck
    split
    · exact h.goto (Code.sleep (.popOff (.inl rfl) (.join rest)))
    · exact h.goto (.popOff (.inl rfl) rest)
  | sleepTicks rest =>
    simp only [exec, Timer.sleepTicks] at run
    split at run
    · obtain rfl := Except.ok.inj run
      exact h.goto (.tickWhile rest)
    · cases run
  | tickWhile rest =>
    obtain rfl := Except.ok.inj run
    unfold Timer.tickWhile
    split
    · exact h.goto (.pushOff (.inl rfl) (.tickIf (.popOff (.inl rfl) (.tickWhile rest))))
    · exact h.goto rest
  | tickIf rest =>
    obtain rfl := Except.ok.inj run
    unfold Timer.tickIf
    split
    · exact h.goto (Code.sleep rest)
    · exact h.goto rest
  | onTick site rest =>
    obtain rfl := Except.ok.inj run
    exact h.next ⟨fun _ => rfl, rfl, rfl, rfl, rfl, rfl, rfl⟩ (h.reads.congr rfl rfl rfl)
      (fun hd => open_deep site hd) rest
  | ringPush site rest =>
    obtain rfl := Except.ok.inj run
    rw [Console.ringPush_eq]
    exact (h.input _).goto rest
  | getcharKernel rest =>
    obtain rfl := Except.ok.inj run
    exact h.goto (.pushOff (.inl rfl) (.acquire rfl (.checkKernel rest)))
  | getcharUser =>
    obtain rfl := Except.ok.inj run
    exact h.goto (.pushOff (.inl rfl) (.acquire rfl .checkUser))
  | checkKernel rest =>
    obtain rfl := Except.ok.inj run
    exact h.getcharCheck (fun _ => .gotKernel rest) (.getcharKernel rest)
  | checkUser =>
    obtain rfl := Except.ok.inj run
    exact h.getcharCheck (fun _ => .gotUser) .getcharUser
  | gotKernel rest =>
    obtain rfl := Except.ok.inj run
    exact h.goto rest
  | gotUser => exact (h.input _).lands (readRest_lands run)
  | wait rest =>
    obtain rfl := Except.ok.inj run
    exact h.goto (Code.waitCode rest)
  | semCheck rest =>
    rcases semCheck_eq run with ⟨_, rfl⟩ | ⟨_, s₁, s₂, hl, hs, rfl⟩
    · exact h.next ⟨fun _ => rfl, rfl, rfl, rfl, rfl, rfl, rfl⟩ (h.reads.congr rfl rfl rfl)
        (fun hd => Bool.noConfusion hd) (.release rfl (.popOff (.inl rfl) rest))
    · obtain ⟨hart, hp, he⟩ := release_eq hl
      obtain ⟨e1, e2, e3⟩ := popOff_place hp
      have hsame : SamePlace s s₁ := by rw [he]; exact ⟨fun _ => rfl, rfl, rfl, rfl, e1, e2, e3⟩
      have hread := popOff_reads h.reads hp
      refine Holds.part (h.place.same hsame) (by rw [he]; exact hread) hs State.noConfusion
        (by simp : _ ↔ false = true) ?_
      rw [hsame.root]
      exact .sched (.popOff (.inl rfl) (.wait rest))
  | increment rest =>
    simp only [exec, bind_ok, Except.ok.injEq] at run
    obtain ⟨s₁, hi, rfl⟩ := run
    unfold Sync.increment at hi
    dsimp only at hi
    split at hi
    · obtain rfl := Except.ok.inj hi
      exact h.next ⟨fun _ => rfl, rfl, rfl, rfl, rfl, rfl, rfl⟩ (h.reads.congr rfl rfl rfl)
        (fun hd => Bool.noConfusion hd) rest
    · cases hi
  | pushBack rest =>
    obtain rfl := Except.ok.inj run
    exact h.next ⟨fun _ => rfl, rfl, rfl, rfl, rfl, rfl, rfl⟩ (h.reads.congr rfl rfl rfl)
      (fun hd => Bool.noConfusion hd) rest
  | popFront rest =>
    simp only [exec, bind_ok, Except.ok.injEq] at run
    obtain ⟨s₁, hi, rfl⟩ := run
    unfold Sync.popFront at hi
    dsimp only at hi
    split at hi
    · cases hi
    · obtain rfl := Except.ok.inj hi
      exact h.next ⟨fun _ => rfl, rfl, rfl, rfl, rfl, rfl, rfl⟩ (h.reads.congr rfl rfl rfl)
        (fun hd => Bool.noConfusion hd) rest
  | body | boot | umode =>
    obtain rfl := Except.ok.inj run
    exact ⟨_, _, _, h⟩
  | box site rest =>
    simp only [exec, bind_ok, Except.ok.injEq] at run
    obtain ⟨s₁, hb, rfl⟩ := run
    exact h.served (.box hb) rest
  | unbox site rest =>
    simp only [exec, bind_ok, Except.ok.injEq] at run
    obtain ⟨s₁, hb, rfl⟩ := run
    exact h.served (.unbox hb) rest
  | spawn site rest =>
    simp only [exec, Proc.spawn, bind_ok, Except.ok.injEq] at run
    obtain ⟨⟨d, s₁⟩, hs, rfl⟩ := run
    exact h.served (.spawnWith hs) (Code.publishing site rest)
  | publish site rest =>
    simp only [exec, bind_ok, Except.ok.injEq] at run
    obtain ⟨s₁, hp, rfl⟩ := run
    exact h.publish site hp rest
  | loadImage site rest => exact h.loadImage run (fun _ => .loadText site rest)
  | execImage => exact h.loadImage run (fun _ => .execText)
  | loadText site rest =>
    exact h.loadText run (.loadText site rest) (.loadStack site rest)
  | execText => exact h.loadText run .execText .execStack
  | loadStack site rest =>
    exact h.loadStack (show Proc.loadStack s _ _ .spawn k = .ok s' from run) (.spawnUser site rest)
  | execStack =>
    exact h.loadStack (show Proc.loadStack s _ _ .exec [] = .ok s' from run) .execCommit
  | spawnUser site rest =>
    simp only [exec, Proc.spawnUser, bind_ok, Except.ok.injEq] at run
    obtain ⟨⟨d, s₁⟩, hs, rfl⟩ := run
    exact h.served (.spawnWith hs) (Code.publishing site rest)
  | execCommit => exact h.commit tab run
  | switchMoving _ rest =>
    simp only [exec, bind_ok, Except.ok.injEq] at run
    obtain ⟨s₁, hs, rfl⟩ := run
    obtain ⟨_, rfl⟩ := switchTo_eq hs
    obtain ⟨i, p, ht, hr, ho, _, hnew⟩ := h.place
    exact ⟨thread, nest 0 false, top, h.reads.congr rfl rfl rfl, fun hd => Bool.noConfusion hd,
      ⟨i, p, ht.hart _, hr, ho, hnew.symm⟩, rest⟩
  | freeUserTable rest =>
    simp only [exec, bind_ok, Except.ok.injEq] at run
    obtain ⟨s₁, hf, rfl⟩ := run
    exact h.served (.of_mem (.freeTable hf)) rest
  | fork => exact h.lands (fork_lands run)
  | kerneltrap => exact h.lands (kerneltrap_lands run)
  | trapRet =>
    obtain rfl := Except.ok.inj run
    exact h.trapRet _
  | sysRet =>
    obtain rfl := Except.ok.inj run
    exact h.trapRet _
  | sretKernel site rest =>
    obtain rfl := Except.ok.inj run
    exact h.irq ⟨rfl, rfl, rfl⟩ (show (nest 0 true).Reads _ from ⟨h.reads.1, rfl⟩)
      (fun hd => open_deep site hd) rest
  | schedLoop =>
    obtain rfl := Except.ok.inj run
    exact h.goto (.intrOn rfl (.pushOff (.inl rfl) .reapFirst))
  | schedLoopLoose =>
    obtain rfl := Except.ok.inj run
    exact h.goto (.intrOnLoose rfl (.pushOff (.inl rfl) .reapFirst))
  | reapFirst =>
    obtain ⟨hb, hcur, hsat, hst⟩ := h.place
    exact h.reap ⟨hb, hcur, hsat, fun j q hq => ⟨(hst j q hq).1, fun _ => Nat.zero_le j⟩⟩ run
  | reap => exact h.reap h.place run
  | pick => exact h.pick run
  | switchPicked rest =>
    simp only [exec, bind_ok, Except.ok.injEq] at run
    obtain ⟨s₁, hs, rfl⟩ := run
    obtain ⟨_, rfl⟩ := switchTo_eq hs
    obtain ⟨hb, ha, hcur, _, p, hp, hr, hpt⟩ := h.place
    exact ⟨ready _, nest 1 true, top, h.reads.congr rfl rfl rfl, fun _ => h.deep rfl,
      ⟨{ hb with }, ha, hcur, p, hp, hr, hpt.symm⟩, rest⟩
  | swtchTo rest => exact h.resume rest run
  | switchBack rest =>
    simp only [exec, bind_ok, Except.ok.injEq] at run
    obtain ⟨s₁, hs, rfl⟩ := run
    obtain ⟨_, rfl⟩ := switchTo_eq hs
    obtain ⟨hb, i, p, ha, hcur, hp, hr, _⟩ := h.place
    exact ⟨restored, held, top, h.reads.congr rfl rfl rfl, fun _ => h.deep rfl,
      ⟨{ hb with }, rfl, i, p, ha, hcur, hp, hr⟩, rest⟩
  | clearCurrent rest =>
    obtain rfl := Except.ok.inj run
    obtain ⟨hb, hsat, i, p, ha, _, hp, hr⟩ := h.place
    refine ⟨Site.boot, held, top, h.reads.congr rfl rfl rfl, fun hd => Bool.noConfusion hd,
      ⟨{ hb with }, rfl, hsat, fun j q hq => ⟨?_, fun _ => trivial⟩⟩, rest⟩
    by_cases hj : j = i
    · subst hj
      rwa [← Option.some.inj (hp.symm.trans hq)]
    · exact (ha j q hq hj).1
  | wfi rest =>
    obtain rfl := Except.ok.inj run
    exact h.goto rest
  | fetchEntry =>
    simp only [exec, Proc.fetchEntry] at run
    split at run
    · cases run
    · obtain rfl := Except.ok.inj run
      exact h.goto (Code.entryCode _)
  | fetchUser =>
    simp only [exec, Proc.fetchUser] at run
    split at run
    · cases run
    · rename_i i p hcp
      obtain rfl := Except.ok.inj run
      rw [h.kstackTop hcp]
      exact h.goto (.popOff (.inl rfl) .userEntry)
  | fetchFork =>
    simp only [exec, Proc.fetchFork] at run
    split at run
    · cases run
    · rename_i i p hcp
      split at run
      · cases run
      · obtain rfl := Except.ok.inj run
        rw [h.kstackTop hcp]
        exact h.goto (.popOff (.inl rfl) (.intrOff .userret))
  | userEntry =>
    simp only [exec, Proc.userEntry] at run
    split at run
    · cases run
    · obtain rfl := Except.ok.inj run
      exact h.goto .enterUser
  | enterUser =>
    obtain rfl := Except.ok.inj run
    exact h.toUser _ rfl rfl rfl rfl rfl
  | userret =>
    obtain rfl := Except.ok.inj run
    exact h.toUser _ rfl rfl rfl rfl rfl

/-- The pages of the table do not matter to the control state. -/
theorem Holds.phys (h : Holds S lvl top s) (P : Phys) : Holds S lvl top { s with phys := P } :=
  ⟨h.reads, h.deep, h.place.same ⟨fun _ => rfl, rfl, rfl, rfl, rfl, rfl, rfl⟩, h.code⟩

/-- A thread hands over the hart with interrupts off. -/
theorem Holds.at_sched (h : Holds S lvl top s) (hcode : s.hart.code = .sched :: k) :
    s.hart.sie = false ∧ ∃ i p, AtThread s i p := by
  obtain ⟨q, rfl, rfl | ⟨rfl, _⟩⟩ := h.leads hcode
  all_goals
    obtain ⟨i, p, hat, _⟩ := h.place
    exact ⟨h.reads.2.1, i, p, hat⟩

theorem Holds.at_swtchTo (h : Holds S lvl top s) (hcode : s.hart.code = .swtchTo i :: k) :
    s.hart.sie = false ∧ AtBoot s := by
  obtain ⟨rfl, rfl, _⟩ := h.leads hcode
  exact ⟨h.reads.2.1, h.place.1⟩

/-- The scheduler reaps in the kernel's own table. -/
theorem Holds.at_reap (h : Holds S lvl top s) (hcode : s.hart.code = .reap i :: k) :
    AtBoot s ∧ s.hart.satp = s.kernelRoot ∧ k = [] := by
  obtain ⟨rfl | rfl, _, hk⟩ := h.leads hcode
  · exact ⟨h.place.1, h.place.2.2.1, hk⟩
  · exact ⟨h.place.1, h.place.2.2.1, hk⟩

theorem Code.at_user {c : List (Instr T)} (h : Code kroot top S lvl c) (hS : S = user) :
    lvl = loose ∧ c = [.umode] := by
  induction h with
  | umode => exact ⟨rfl, rfl⟩
  | wakeAll rest ih => cases (ih hS).1
  | pushOff site _ | popOff site _ =>
    subst hS
    rcases site with site | site <;> cases site
    all_goals contradiction
  | popHeld site _ | intrOn site _ | intrOnLoose site _ | acquire site _ | release site _
  | yieldBody site _ | tickCheck site _ | onTick site _ | ringPush site _ | box site _ | unbox site _
  | spawn site _ | publish site _ | loadImage site _ | loadText site _ | loadStack site _
  | spawnUser site _ | sretKernel site _ =>
    subst hS
    cases site
  | _ => cases hS

/-- Off the kernel's stacks there is only U-mode. -/
theorem Holds.on_user (h : Holds S lvl top s) (hstack : s.hart.stack = .user) :
    S = user ∧ s.hart.code = [.umode] := by
  obtain ⟨_, _, hplace, hcode⟩ := h
  cases S with
  | thread | moving =>
    obtain ⟨_, _, _, _, ⟨_, h2, _⟩, _⟩ := hplace
    rw [h2] at hstack
    cases hstack
  | parted =>
    obtain ⟨_, _, _, _, _, ⟨_, h2, _⟩, _⟩ := hplace
    rw [h2] at hstack
    cases hstack
  | user => exact ⟨rfl, (hcode.at_user rfl).2⟩
  | _ =>
    rw [hplace.1.stack] at hstack
    cases hstack

theorem step_controlled (h : Controlled s)
    (tab : ∀ j q, s.proc j = some q → q.pageTable = q.userTable.getD s.kernelRoot)
    (move : Step E s s') : Controlled s' := by
  obtain ⟨S, lvl, top, h⟩ := h
  cases move with
  | exec junk code run => exact exec_controlled h code tab run
  | call op code =>
    obtain ⟨rfl, rfl, rfl⟩ := h.leads code
    exact h.goto (Code.op E op .body)
  | leave code =>
    obtain ⟨rfl, rfl, rfl⟩ := h.leads code
    exact h.goto .exit
  | bootCall op early code =>
    obtain ⟨rfl, rfl, rfl⟩ := h.leads code
    exact h.goto (Code.earlyOp E op early .boot)
  | bootDone code =>
    obtain ⟨rfl, rfl, rfl⟩ := h.leads code
    exact h.goto .schedLoop
  | interrupt irq on kernel =>
    exact h.fromKernel on kernel (fun S k hS hk => Code.irq E irq hS hk)
  | userInterrupt irq code =>
    obtain ⟨rfl, rfl, rfl⟩ := h.leads code
    exact h.fromUser (Code.irq E irq rfl .trapRet)
  | userAlu regs pc words code =>
    exact ⟨S, lvl, top, h.reads.congr rfl rfl rfl, h.deep,
      h.place.same ⟨fun _ => rfl, rfl, rfl, rfl, rfl, rfl, rfl⟩, h.code⟩
  | userStore va pa b code mapped => exact ⟨S, lvl, top, h.phys _⟩
  | userTrap cause stval word code fetched =>
    obtain ⟨rfl, rfl, rfl⟩ := h.leads code
    exact h.fromUser .kerneltrap

theorem boot_controlled (run : kmain E reserved m regs = .ok s) : Controlled s := by
  simp only [kmain, bind_ok, Except.ok.injEq] at run
  obtain ⟨P₁, _, ⟨a, P₂⟩, _, ⟨b, P₃⟩, _, P₄, _, P₅, _, ⟨root, P₆⟩, _, ⟨m', heap⟩, _, rfl⟩ := run
  have hnone : ∀ (j : Nat) (q : Process T),
      (([] : List (Option (Process T)))[j]?).join = some q → False := by
    intro j q hq
    simp at hq
  exact ⟨Site.boot, nest 0 true, 0, ⟨rfl, rfl⟩, fun hd => Bool.noConfusion hd,
    ⟨⟨rfl, rfl, rfl, fun j q hq => (hnone j q hq).elim⟩, rfl, rfl,
      fun j q hq => (hnone j q hq).elim⟩, .boot⟩

end Osmium.Control
