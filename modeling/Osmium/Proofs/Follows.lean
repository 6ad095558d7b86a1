import Osmium.Proofs.HeapList
import Osmium.Proofs.Moves

namespace Osmium
open Lib Control

variable {T : Type}

namespace Instr

/-- Pieces that only act: what comes next is the code behind them. -/
def plain : Instr T → Bool
  | .pushOff | .popOff | .intrOn | .intrOff | .setIntena _ | .acquire _ | .release _
  | .sleepMark _ | .wakeAll _ | .exitMark | .onTick | .ringPush _ | .gotChar .kernel _
  | .increment _ | .pushBack .. | .popFront _ | .box .. | .unbox _ | .switchTo _
  | .clearCurrent | .wfi | .sretKernel | .publish _ | .freeUserTable _ => true
  | _ => false

/-- Pieces that wait for the outside. -/
def idles : Instr T → Bool
  | .body | .boot | .umode => true
  | _ => false

/-- The ways to U-mode. -/
def drops : Instr T → Bool
  | .enterUser .. | .userret .. | .trapRet _ | .sysRet .. => true
  | _ => false

/-- The two halves of a context switch. -/
def switches : Instr T → Bool
  | .sched | .swtchTo _ => true
  | _ => false

/-- Pieces that change a saved context, or whose contexts there are. -/
def saves : Instr T → Bool
  | .publish _ | .reap _ => true
  | i => i.switches

/-- Pieces that change the interrupt bookkeeping. -/
def masks : Instr T → Bool
  | .pushOff | .popOff | .intrOn | .intrOff | .setIntena _ | .acquire _ | .release _
  | .semCheck _ | .sretKernel => true
  | i => i.drops

/-- Pieces that take or drop a lock. -/
def locks : Instr T → Bool
  | .acquire _ | .release _ | .semCheck _ => true
  | _ => false

/-- Pieces that change the console's ring. -/
def reads : Instr T → Bool
  | .ringPush _ | .getcharCheck _ | .gotChar (.user ..) _ => true
  | _ => false

end Instr

/-- Where a system call goes on. -/
inductive Calls (f : TrapFrame) : List (Instr T) → Prop where
  | ret (n : Nat) : Calls f [.sysRet f n]
  | exit (call : Syscall.call f.a7 = some .exit) : Calls f [.exit]
  | yieldNow (call : Syscall.call f.a7 = some .yieldNow) : Calls f (Proc.yieldNow ++ [.sysRet f 0])
  | read (buf : Nat) (call : Syscall.call f.a7 = some .read) (some : f.a1 ≠ 0) :
      Calls f [.getcharLoop (.user f f.a0 (min f.a1 Syscall.writeMax) buf)]
  | fork (call : Syscall.call f.a7 = some .fork) : Calls f [.fork f]
  | wait (call : Syscall.call f.a7 = some .wait) : Calls f [.join f.a0, .sysRet f 0]
  | exec (prog : Program) (call : Syscall.call f.a7 = some .exec) : Calls f [.loadImage prog .exec]
  | sleepMs (call : Syscall.call f.a7 = some .sleepMs) :
      Calls f [.sleepTicks (Syscall.sleepMs f.a0), .sysRet f 0]

/-- The code a thread can have after the piece `i` in front of `k`. -/
inductive Follows (E : Env) (s : Sys T) : Instr T → List (Instr T) → List (Instr T) → Prop where
  | plain (acts : i.plain = true) : Follows E s i k k
  | idle (idles : i.idles = true) : Follows E s i k (i :: k)
  | drop (drops : i.drops = true) : Follows E s i k [.umode]
  | sched : Follows E s .sched k (.setIntena s.hart.intena :: k)
  | yieldBody (busy : s.current ≠ none) : Follows E s .yieldBody k (.sched :: k)
  | noYield (idle : s.current = none) : Follows E s .yieldBody k k
  | preempt : Follows E s .tickCheck k (.popOff :: Proc.yieldNow ++ k)
  | noPreempt : Follows E s .tickCheck k (.popOff :: k)
  | exit : Follows E s .exit k Proc.exitCode
  | join (pid : Nat) : Follows E s (.join pid) k (.pushOff :: .joinCheck pid :: k)
  | joinSleep (pid : Nat) (there : Proc.stillRunning s pid = true) :
      Follows E s (.joinCheck pid) k (Proc.sleep .exit ++ [.popOff, .join pid] ++ k)
  | joined (pid : Nat) (gone : Proc.stillRunning s pid = false) :
      Follows E s (.joinCheck pid) k (.popOff :: k)
  | sleepTicks (n : Nat) (fits : s.ticks + n < 2 ^ 64) :
      Follows E s (.sleepTicks n) k (.tickWhile (s.ticks + n) :: k)
  | tickAgain (target : Nat) (early : s.ticks < target) :
      Follows E s (.tickWhile target) k ([.pushOff, .tickIf target, .popOff, .tickWhile target] ++ k)
  | tickDone (target : Nat) (late : target ≤ s.ticks) : Follows E s (.tickWhile target) k k
  | tickSleep (target : Nat) (early : s.ticks < target) :
      Follows E s (.tickIf target) k (Proc.sleep .tick ++ k)
  | tickOver (target : Nat) (late : target ≤ s.ticks) : Follows E s (.tickIf target) k k
  | getchar (r : Reader) : Follows E s (.getcharLoop r) k (Console.getcharCode r ++ k)
  | getcharSleep (r : Reader) (empty : s.input.r = s.input.w) :
      Follows E s (.getcharCheck r) k
        (.release .input :: Proc.sleep .input ++ [.popOff, .getcharLoop r] ++ k)
  | getcharGot (r : Reader) (full : s.input.r ≠ s.input.w) :
      Follows E s (.getcharCheck r) k
        (.release .input :: .popOff :: .gotChar r (s.input.buf (s.input.r % inputCap)) :: k)
  | read (n : Nat) : Follows E s (.gotChar (.user f ptr cap buf) byte) k [.sysRet f n]
  | wait (a : SemId) : Follows E s (.wait a) k (Sync.waitCode a ++ k)
  | pass (a : SemId) : Follows E s (.semCheck a) k (.release (.count a) :: .popOff :: k)
  | block (a : SemId) : Follows E s (.semCheck a) k (.sched :: .popOff :: .wait a :: k)
  | schedLoop : Follows E s .schedLoop k [.intrOn, .pushOff, .reap 0]
  | reapNext (j : Nat) : Follows E s (.reap j) k [.reap (j + 1)]
  | reapDone (j : Nat) : Follows E s (.reap j) k [.pick]
  | pickNone : Follows E s .pick k [.popOff, .intrOn, .wfi, .schedLoop]
  | pick (j : Nat) (root : Nat) :
      Follows E s .pick k ([.switchTo root, .swtchTo j] ++ Proc.afterSwitch s)
  | fetchEntry (caller : s.currentProc = some (j, p)) :
      Follows E s .fetchEntry k (Proc.entryCode p.entry)
  | fetchUser (caller : s.currentProc = some (j, p)) :
      Follows E s .fetchUser k (.popOff :: .userEntry p.userEntry p.userSp p.kstackTop :: k)
  | fetchFork (caller : s.currentProc = some (j, p)) (frame : p.forkFrame = some (b, f)) :
      Follows E s .fetchFork k (.popOff :: .intrOff :: .userret f p.kstackTop :: k)
  | userEntry (entry sp top : Nat) :
      Follows E s (.userEntry entry sp top) k (.enterUser entry sp top :: k)
  | trapBreak (len : Nat) :
      Follows E s (.kerneltrap f 3 stval) k [.trapRet { f with sepc := f.sepc + len }]
  | trapCall (calls : Calls { f with sepc := f.sepc + 4 } c) :
      Follows E s (.kerneltrap f 8 stval) k c
  | trapServed (fault : code = 13 ∨ code = 15) : Follows E s (.kerneltrap f code stval) k [.trapRet f]
  | trapKill (other : code ≠ 3 ∧ code ≠ 8) : Follows E s (.kerneltrap f code stval) k [.exit]
  | loadImage (table : Nat) : Follows E s (.loadImage prog fin) k (.loadText prog table 0 fin :: k)
  | loadText (more : n < Proc.npages E prog) :
      Follows E s (.loadText prog table n fin) k (.loadText prog table (n + 1) fin :: k)
  | loadedText (all : ¬n < Proc.npages E prog) :
      Follows E s (.loadText prog table n fin) k (.loadStack prog table fin :: k)
  | loadSpawn : Follows E s (.loadStack prog table .spawn) k (.spawnUser prog table :: k)
  | loadExec : Follows E s (.loadStack prog table .exec) k (.execCommit prog table :: k)
  | spawnUser (d : ProcData) : Follows E s (.spawnUser prog table) k (Proc.publishing d ++ k)
  | execCommit (caller : s.currentProc = some (j, p)) :
      Follows E s (.execCommit prog table) k (Proc.execRest table p)
  | spawn (d : ProcData) : Follows E s .spawn k (Proc.publishing d ++ k)
  | fork (d : ProcData) : Follows E s (.fork f) k (Proc.publishing d ++ [.sysRet f d.pid])
  | forkNone (idle : s.currentProc = none) : Follows E s (.fork f) k [.sysRet f (2 ^ 64 - 1)]

/-- A process's data without what its own calls change. -/
def static (p : Process T) : ProcData := { p.toProcData with fds := [], heapBrk := 0 }

/-- What running the piece `i` can do to the data in a slot. -/
inductive Heir (i : Instr T) (current : Option Nat) (slot : Nat) :
    Option (Process T) → Option (Process T) → Prop where
  | same (same : o'.map static = o.map static) : Heir i current slot o o'
  | exec (piece : i = .execCommit prog table) (caller : current = some slot) :
      Heir i current slot (some p) (some (Proc.takeSpace prog table p))
  | reap (piece : i = .reap slot) : Heir i current slot (some p) none
  | born (piece : i = .publish d) : Heir i current slot none (some (Proc.fresh d))

/-- What running the piece `i` in front of `k` can do to code, clock, console,
locks, the interrupt bookkeeping and the processes. -/
structure Turns (E : Env) (i : Instr T) (k : List (Instr T)) (s s' : Sys T) : Prop where
  code : i.switches = false → Follows E s i k s'.hart.code
  ctx : i.saves = false → SameCtx s s'
  ticks : i ≠ .onTick → s'.ticks = s.ticks
  input : i.reads = false → s'.input = s.input
  locked : i.locks = false → s'.locked = s.locked
  irq : i.masks = false → s'.hart.sie = s.hart.sie ∧ s'.hart.noff = s.hart.noff ∧
    s'.hart.intena = s.hart.intena
  heirs : ∀ j, Heir i s.current j (s.proc j) (s'.proc j)
  slots : Slots s s'
  next : i ≠ .pick → s'.nextSlot = s.nextSlot

theorem static_of_serves {s s' : Sys T} (h : Serves s s') (j : Nat) :
    (s'.proc j).map static = (s.proc j).map static := by
  have hj := congrArg (Option.map static) (h.procs j)
  rw [Option.map_map, Option.map_map] at hj
  exact hj

theorem static_setProc (s : Sys T) (i j : Nat) (g : Process T → Process T)
    (hg : ∀ p, static (g p) = static p) :
    ((s.setProc i g).proc j).map static = (s.proc j).map static := by
  rw [Sys.proc_setProc]
  split
  · cases s.proc j with
    | none => rfl
    | some p => exact congrArg some (hg p)
  · rfl

namespace Turns

variable {s s' s₁ : Sys T} {i : Instr T}

theorem goto (h : Follows E s i k c) : Turns E i k s (s.goto c) :=
  ⟨fun _ => h, fun _ => sameCtx_goto s c, fun _ => rfl, fun _ => rfl, fun _ => rfl,
    fun _ => ⟨rfl, rfl, rfl⟩, fun _ => .same rfl, .same rfl rfl, fun _ => rfl⟩

/-- A piece about the interrupt bookkeeping. -/
theorem mask (hm : i.masks = true) (h : Follows E s i k h'.code) :
    Turns E i k s { s with hart := h' } :=
  ⟨fun _ => h, fun _ => ⟨rfl, fun _ => rfl⟩, fun _ => rfl, fun _ => rfl, fun _ => rfl,
    fun hn => absurd (hn.symm.trans hm) nofun, fun _ => .same rfl, .same rfl rfl, fun _ => rfl⟩

theorem served (hs : Serves s s₁) (h : Follows E s i k c) : Turns E i k s (s₁.goto c) := by
  have hctx := sameCtx_of_place (samePlace_of_serves hs)
  refine ⟨fun _ => h, fun _ => ⟨hctx.sched, hctx.procs⟩, fun _ => hs.ticks, fun _ => hs.input,
    fun _ => hs.locked, fun _ => ?_, fun j => .same (static_of_serves hs j),
    ⟨hs.slots.grows, hs.slots.room⟩, fun _ => hs.next⟩
  show s₁.hart.sie = _ ∧ s₁.hart.noff = _ ∧ s₁.hart.intena = _
  rw [hs.hart]
  exact ⟨rfl, rfl, rfl⟩

/-- A change of processes that keeps their contexts. -/
theorem procs (hs : Proc.setState s st = .ok s₁) (h : Follows E s i k c) :
    Turns E i k s (s₁.goto c) := by
  obtain ⟨j, p, _, _, rfl⟩ := Proc.setState_eq hs
  exact ⟨fun _ => h, fun _ => ⟨rfl, fun _ => ctx_setProc _ _ _ _ (fun _ => rfl)⟩, fun _ => rfl,
    fun _ => rfl, fun _ => rfl, fun _ => ⟨rfl, rfl, rfl⟩, fun _ => .same (static_setProc _ _ _ _ (fun _ => rfl)),
    .same (length_setProc _ _ _) rfl, fun _ => rfl⟩

end Turns

theorem dispatch_calls {s s' : Sys T} (run : Syscall.dispatch E s f = .ok s') :
    ∃ s₁ c, Serves s s₁ ∧ s' = s₁.goto c ∧ Calls { f with sepc := f.sepc + 4 } c := by
  simp only [Syscall.dispatch, bind_ok] at run
  obtain ⟨sepc, hsepc, run⟩ := run
  obtain ⟨rfl, _⟩ := Heap.checked_eq hsepc
  have hret : ∀ {x : Except Panic (Nat × Sys T)} {f : TrapFrame},
      (∀ n s₁, x = .ok (n, s₁) → Serves s s₁) →
      ((fun (p : Nat × Sys T) => p.2.goto [.sysRet f p.1]) <$> x) = .ok s' →
      ∃ s₁ c, Serves s s₁ ∧ s' = s₁.goto c ∧ Calls f c := by
    intro x f hx hr
    cases x with
    | error e => cases hr
    | ok p =>
      obtain rfl := Except.ok.inj hr
      exact ⟨p.2, _, hx p.1 p.2 rfl, rfl, .ret p.1⟩
  split at run
  · exact hret (fun n s₁ h => .of_mem (.sysWrite h)) run
  · rename_i hc
    obtain rfl := Except.ok.inj run
    exact ⟨s, _, .refl s, rfl, .exit hc⟩
  · rename_i hc
    obtain rfl := Except.ok.inj run
    exact ⟨s, _, .refl s, rfl, .yieldNow hc⟩
  · obtain rfl := Except.ok.inj run
    exact ⟨s, _, .refl s, rfl, .ret _⟩
  · rename_i hc
    unfold Syscall.sysRead at run
    split at run
    · obtain rfl := Except.ok.inj run
      exact ⟨s, _, .refl s, rfl, .ret _⟩
    · rename_i hlen
      simp only [bind_ok, Except.ok.injEq] at run
      obtain ⟨⟨b, s₁⟩, ha, rfl⟩ := run
      exact ⟨s₁, _, .of_mem (.alloc ha), rfl, .read b hc hlen⟩
  · exact hret (fun n s₁ h => .of_mem (.copyOut h)) run
  · exact hret (fun n s₁ h => .sysOpen h) run
  · exact hret (fun n s₁ h => .sysFread h) run
  · obtain rfl := Except.ok.inj run
    exact ⟨_, _, .sbrk s _, rfl, .ret _⟩
  · rename_i hc
    obtain rfl := Except.ok.inj run
    exact ⟨s, _, .refl s, rfl, .fork hc⟩
  · rename_i hc
    obtain rfl := Except.ok.inj run
    exact ⟨s, _, .refl s, rfl, .wait hc⟩
  · rename_i hc
    simp only [Syscall.sysExec, bind_ok] at run
    obtain ⟨⟨r, s₁⟩, hn, run⟩ := run
    rcases r with _ | ⟨prog, b⟩
    · obtain rfl := Except.ok.inj run
      exact ⟨s₁, _, .of_mem (.withName hn), rfl, .ret _⟩
    · obtain rfl := Except.ok.inj run
      exact ⟨s₁, _, .of_mem (.withName hn), rfl, .exec prog hc⟩
  · obtain rfl := Except.ok.inj run
    exact ⟨_, _, .fdClose s _, rfl, .ret _⟩
  · rename_i hc
    obtain rfl := Except.ok.inj run
    exact ⟨s, _, .refl s, rfl, .sleepMs hc⟩
  · obtain rfl := Except.ok.inj run
    exact ⟨s, _, .refl s, rfl, .ret _⟩

theorem kerneltrap_turns {s s' : Sys T} (run : Trap.kerneltrap E s f code stval = .ok s') :
    Turns E (.kerneltrap f code stval) k s s' := by
  unfold Trap.kerneltrap at run
  split at run
  · rename_i hc
    subst hc
    simp only [bind_ok, Except.ok.injEq] at run
    obtain ⟨len, _, sepc, hs, rfl⟩ := run
    obtain ⟨rfl, _⟩ := Heap.checked_eq hs
    exact .goto (.trapBreak len)
  · split at run
    · rename_i hc
      subst hc
      obtain ⟨s₁, c, hs, rfl, hcalls⟩ := dispatch_calls run
      exact .served hs (.trapCall hcalls)
    · rename_i h3 h8
      split at run
      · rename_i hf
        simp only [bind_ok] at run
        obtain ⟨⟨b, s₁⟩, hp, run⟩ := run
        have hs := Serves.of_mem (OnlyMem.servicePageFault hp)
        cases b with
        | true =>
          obtain rfl := Except.ok.inj run
          exact .served hs (.trapServed hf)
        | false =>
          obtain rfl := Except.ok.inj run
          exact .served hs (.trapKill ⟨h3, h8⟩)
      · obtain rfl := Except.ok.inj run
        exact .goto (.trapKill ⟨h3, h8⟩)

theorem fork_turns {s s' : Sys T} (run : Proc.fork E s f = .ok s') : Turns E (.fork f) k s s' := by
  unfold Proc.fork at run
  split at run
  · rename_i hc
    obtain rfl := Except.ok.inj run
    exact .goto (.forkNone hc)
  · simp only [bind_ok, Except.ok.injEq] at run
    obtain ⟨⟨t, P⟩, _, ⟨b, s₁⟩, ha, ⟨d, s₂⟩, hs, rfl⟩ := run
    exact .served (((Serves.of_mem (.phys s P)).trans (.of_mem (.alloc ha))).trans (.spawnWith hs))
      (.fork d)

theorem readRest_turns {s s' : Sys T} (run : Syscall.readRest s f ptr cap buf byte = .ok s') :
    Turns E (.gotChar (.user f ptr cap buf) byte) k s s' := by
  simp only [Syscall.readRest, bind_ok, Except.ok.injEq] at run
  obtain ⟨⟨n, s₁⟩, hc, s₂, hd, rfl⟩ := run
  rw [Syscall.drain_eq] at hc
  have hs : Serves { s with input := (Syscall.drain s (cap - 1)).2.input } s₂ :=
    (Serves.of_mem (.copyOut hc)).trans (.of_mem (.dealloc hd))
  have ht : Turns E (.gotChar (.user f ptr cap buf) byte) k _ (s₂.goto [.sysRet f n]) :=
    .served hs (.read n)
  exact { ht with
    code := fun _ => .read n
    ctx := fun h => ⟨(ht.ctx h).sched, (ht.ctx h).procs⟩
    input := (fun h => by cases h)
    slots := ⟨ht.slots.grows, ht.slots.room⟩ }

theorem execCommit_turns {s s' : Sys T} (run : Proc.execCommit s prog table = .ok s') :
    Turns E (.execCommit prog table) k s s' := by
  unfold Proc.execCommit at run
  split at run
  · cases run
  · rename_i j p hc
    simp only [bind_ok, Except.ok.injEq] at run
    obtain ⟨s₁, hd, rfl⟩ := run
    have hs := Serves.of_mem (OnlyMem.dropFrame hd)
    have ht : Turns E (.execCommit prog table) k s (s₁.goto (Proc.execRest table p)) :=
      .served hs (.execCommit hc)
    refine { ht with
      ctx := fun h => ⟨(ht.ctx h).sched, fun l => ?_⟩
      heirs := fun l => ?_
      slots := ht.slots.trans (.same (length_setProc _ _ _) rfl) }
    · exact (ctx_setProc s₁ j l (Proc.takeSpace prog table) (fun _ => rfl)).trans ((ht.ctx h).procs l)
    · obtain ⟨hcur, hp⟩ := Sys.currentProc_eq hc
      have hproc : ∀ l, s₁.proc l = s.proc l := fun l => by rw [OnlyMem.dropFrame hd]; rfl
      show Heir _ _ _ _ ((s₁.setProc j _).proc l)
      rw [Sys.proc_setProc, hproc]
      split
      · rename_i hl
        subst hl
        rw [hp]
        exact .exec rfl hcur
      · exact .same rfl

/-- What each piece of code can do, once and for all. -/
theorem exec_turns {s s' : Sys T} (hcode : s.hart.code = i :: k)
    (run : exec E junk s i k = .ok s') : Turns E i k s s' := by
  cases i with
  | pushOff | intrOn | intrOff | setIntena b | sretKernel =>
    obtain rfl := Except.ok.inj run
    exact .mask rfl (.plain rfl)
  | popOff =>
    simp only [exec, bind_ok, Except.ok.injEq] at run
    obtain ⟨h, _, rfl⟩ := run
    exact .mask rfl (.plain rfl)
  | acquire l =>
    simp only [exec, bind_ok, Except.ok.injEq] at run
    obtain ⟨s₁, ha, rfl⟩ := run
    obtain ⟨_, rfl⟩ := acquire_eq ha
    exact ⟨fun _ => .plain rfl, fun _ => ⟨rfl, fun _ => rfl⟩, fun _ => rfl, fun _ => rfl, (fun h => by cases h), (fun h => by cases h), fun _ => .same rfl, .same rfl rfl, fun _ => rfl⟩
  | release l =>
    simp only [exec, bind_ok, Except.ok.injEq] at run
    obtain ⟨s₁, ha, rfl⟩ := run
    obtain ⟨_, _, rfl⟩ := release_eq ha
    exact ⟨fun _ => .plain rfl, fun _ => ⟨rfl, fun _ => rfl⟩, fun _ => rfl, fun _ => rfl, (fun h => by cases h), (fun h => by cases h), fun _ => .same rfl, .same rfl rfl, fun _ => rfl⟩
  | sched =>
    obtain ⟨_, j, p, _, _, _, rfl⟩ := Proc.sched_eq run
    exact ⟨(fun h => by cases h), (fun h => by cases h), fun _ => rfl, fun _ => rfl, fun _ => rfl, fun _ => ⟨rfl, rfl, rfl⟩,
      fun _ => .same (static_setProc _ _ _ _ (fun _ => rfl)),
    .same (length_setProc _ _ _) rfl, fun _ => rfl⟩
  | swtchTo j =>
    obtain ⟨p, _, rfl⟩ := Proc.swtchTo_eq run
    exact ⟨(fun h => by cases h), (fun h => by cases h), fun _ => rfl, fun _ => rfl, fun _ => rfl, fun _ => ⟨rfl, rfl, rfl⟩,
      fun _ => .same (static_setProc _ _ _ _ (fun _ => rfl)),
    .same (length_setProc _ _ _) rfl, fun _ => rfl⟩
  | yieldBody =>
    simp only [exec, Proc.yieldBody] at run
    split at run
    · rename_i hc
      obtain rfl := Except.ok.inj run
      exact .goto (.noYield hc)
    · rename_i hc
      simp only [bind_ok, Except.ok.injEq] at run
      obtain ⟨s₁, hs, rfl⟩ := run
      exact .procs hs (.yieldBody (by rw [hc]; exact Option.some_ne_none _))
  | tickCheck =>
    simp only [exec, Proc.tickCheck] at run
    split at run
    · obtain rfl := Except.ok.inj run
      exact .goto .noPreempt
    · split at run
      · cases run
      · split at run
        · obtain rfl := Except.ok.inj run
          exact .goto .preempt
        · obtain rfl := Except.ok.inj run
          exact .goto .noPreempt
  | sleepMark | exitMark =>
    simp only [exec, bind_ok, Except.ok.injEq] at run
    obtain ⟨s₁, hs, rfl⟩ := run
    exact .procs hs (.plain rfl)
  | wakeAll c =>
    obtain rfl := Except.ok.inj run
    have hctx : SameCtx s (Proc.wakeAll s c) := by
      refine ⟨rfl, fun j => ?_⟩
      have hj := congrArg (Option.map (fun t : Bool × Bool × Context T × Nat × Nat => t.2.2.1.code))
        (wakeAll_standing s c j)
      rw [Option.map_map, Option.map_map] at hj
      exact hj
    refine ⟨fun _ => .plain rfl, fun _ => ⟨rfl, hctx.procs⟩, fun _ => rfl, fun _ => rfl, fun _ => rfl,
      fun _ => ⟨rfl, rfl, rfl⟩, fun j => .same ?_, .same (List.length_map _) rfl, fun _ => rfl⟩
    show ((Proc.wakeAll s c).proc j).map static = _
    rw [Proc.wakeAll_proc, Option.map_map]
    refine congrArg (fun g => (s.proc j).map g) (funext fun p => ?_)
    show static (Proc.wakeProc c p) = static p
    unfold Proc.wakeProc
    split <;> rfl
  | exit =>
    obtain rfl := Except.ok.inj run
    exact .goto .exit
  | unreachable => cases run
  | join pid =>
    obtain rfl := Except.ok.inj run
    exact .goto (.join pid)
  | joinCheck pid =>
    obtain rfl := Except.ok.inj run
    unfold Proc.joinCheck
    split
    · rename_i h
      exact .goto (.joinSleep pid h)
    · rename_i h
      exact .goto (.joined pid (Bool.eq_false_iff.mpr h))
  | sleepTicks n =>
    simp only [exec, Timer.sleepTicks] at run
    split at run
    · rename_i h
      obtain rfl := Except.ok.inj run
      exact .goto (.sleepTicks n h)
    · cases run
  | tickWhile n =>
    obtain rfl := Except.ok.inj run
    unfold Timer.tickWhile
    split
    · rename_i h
      exact .goto (.tickAgain n h)
    · rename_i h
      exact .goto (.tickDone n (Nat.le_of_not_lt h))
  | tickIf n =>
    obtain rfl := Except.ok.inj run
    unfold Timer.tickIf
    split
    · rename_i h
      exact .goto (.tickSleep n h)
    · rename_i h
      exact .goto (.tickOver n (Nat.le_of_not_lt h))
  | onTick =>
    obtain rfl := Except.ok.inj run
    exact ⟨fun _ => .plain rfl, fun _ => ⟨rfl, fun _ => rfl⟩, fun h => absurd rfl h, fun _ => rfl,
      fun _ => rfl, fun _ => ⟨rfl, rfl, rfl⟩, fun _ => .same rfl, .same rfl rfl, fun _ => rfl⟩
  | ringPush byte =>
    obtain rfl := Except.ok.inj run
    rw [Console.ringPush_eq]
    exact ⟨fun _ => .plain rfl, fun _ => ⟨rfl, fun _ => rfl⟩, fun _ => rfl, (fun h => by cases h), fun _ => rfl,
      fun _ => ⟨rfl, rfl, rfl⟩, fun _ => .same rfl, .same rfl rfl, fun _ => rfl⟩
  | getcharLoop r =>
    obtain rfl := Except.ok.inj run
    exact .goto (.getchar r)
  | getcharCheck r =>
    obtain rfl := Except.ok.inj run
    rcases Console.getcharCheck_eq s r k with ⟨hr, he⟩ | ⟨hr, he⟩
    · rw [he]
      exact .goto (.getcharSleep r hr)
    · rw [he]
      exact ⟨fun _ => .getcharGot r hr, fun _ => ⟨rfl, fun _ => rfl⟩, fun _ => rfl, (fun h => by cases h),
        fun _ => rfl, fun _ => ⟨rfl, rfl, rfl⟩, fun _ => .same rfl, .same rfl rfl, fun _ => rfl⟩
  | gotChar r byte =>
    cases r with
    | kernel =>
      obtain rfl := Except.ok.inj run
      exact .goto (.plain rfl)
    | user f ptr cap buf => exact readRest_turns run
  | wait a =>
    obtain rfl := Except.ok.inj run
    exact .goto (.wait a)
  | semCheck a =>
    rcases semCheck_eq run with ⟨_, rfl⟩ | ⟨_, s₁, s₂, hl, hs, rfl⟩
    · exact ⟨fun _ => .pass a, fun _ => ⟨rfl, fun _ => rfl⟩, fun _ => rfl, fun _ => rfl, (fun h => by cases h), (fun h => by cases h), fun _ => .same rfl, .same rfl rfl, fun _ => rfl⟩
    · obtain ⟨_, _, rfl⟩ := release_eq hl
      obtain ⟨j, p, _, _, rfl⟩ := Proc.setState_eq hs
      exact ⟨fun _ => .block a, fun _ => ⟨rfl, fun _ => ctx_setProc _ _ _ _ (fun _ => rfl)⟩,
        fun _ => rfl, fun _ => rfl, (fun h => by cases h), (fun h => by cases h), fun _ => .same (static_setProc _ _ _ _ (fun _ => rfl)),
    .same (length_setProc _ _ _) rfl, fun _ => rfl⟩
  | increment a =>
    simp only [exec, bind_ok, Except.ok.injEq] at run
    obtain ⟨s₁, hi, rfl⟩ := run
    unfold Sync.increment at hi
    dsimp only at hi
    split at hi
    · obtain rfl := Except.ok.inj hi
      exact ⟨fun _ => .plain rfl, fun _ => ⟨rfl, fun _ => rfl⟩, fun _ => rfl, fun _ => rfl,
        fun _ => rfl, fun _ => ⟨rfl, rfl, rfl⟩, fun _ => .same rfl, .same rfl rfl, fun _ => rfl⟩
    · cases hi
  | pushBack ch item =>
    obtain rfl := Except.ok.inj run
    exact ⟨fun _ => .plain rfl, fun _ => ⟨rfl, fun _ => rfl⟩, fun _ => rfl, fun _ => rfl,
      fun _ => rfl, fun _ => ⟨rfl, rfl, rfl⟩, fun _ => .same rfl, .same rfl rfl, fun _ => rfl⟩
  | popFront ch =>
    simp only [exec, bind_ok, Except.ok.injEq] at run
    obtain ⟨s₁, hi, rfl⟩ := run
    unfold Sync.popFront at hi
    dsimp only at hi
    split at hi
    · cases hi
    · obtain rfl := Except.ok.inj hi
      exact ⟨fun _ => .plain rfl, fun _ => ⟨rfl, fun _ => rfl⟩, fun _ => rfl, fun _ => rfl,
        fun _ => rfl, fun _ => ⟨rfl, rfl, rfl⟩, fun _ => .same rfl, .same rfl rfl, fun _ => rfl⟩
  | body | boot | umode =>
    obtain rfl := Except.ok.inj run
    exact ⟨fun _ => by rw [hcode]; exact .idle rfl, fun _ => ⟨rfl, fun _ => rfl⟩, fun _ => rfl,
      fun _ => rfl, fun _ => rfl, fun _ => ⟨rfl, rfl, rfl⟩, fun _ => .same rfl, .same rfl rfl, fun _ => rfl⟩
  | box size a =>
    simp only [exec, bind_ok, Except.ok.injEq] at run
    obtain ⟨s₁, hb, rfl⟩ := run
    exact .served (.box hb) (.plain rfl)
  | unbox j =>
    simp only [exec, bind_ok, Except.ok.injEq] at run
    obtain ⟨s₁, hb, rfl⟩ := run
    exact .served (.unbox hb) (.plain rfl)
  | schedLoop =>
    obtain rfl := Except.ok.inj run
    exact .goto .schedLoop
  | reap j =>
    simp only [exec, Proc.reapLoop] at run
    split at run
    · rename_i hlt
      simp only [bind_ok, Except.ok.injEq] at run
      obtain ⟨s₁, hr, rfl⟩ := run
      rcases Proc.reap_eq hr with ⟨rfl, _⟩ | ⟨p, _, s₂, hp, _, _, _, hm, rfl⟩
      · exact .goto (.reapNext j)
      · rw [hm]
        refine ⟨fun _ => .reapNext j, (fun h => by cases h), fun _ => rfl, fun _ => rfl, fun _ => rfl,
          fun _ => ⟨rfl, rfl, rfl⟩, fun l => ?_, .same List.length_set rfl, fun _ => rfl⟩
        show Heir _ _ _ _ (((s.procs.set j none)[l]?).join)
        rw [Proc.proc_set _ _ _ _ hlt]
        split
        · rename_i hl
          subst hl
          rw [hp]
          exact .reap rfl
        · exact .same rfl
    · obtain rfl := Except.ok.inj run
      exact .goto (.reapDone j)
  | pick =>
    rcases Proc.pick_eq run with ⟨_, rfl⟩ | ⟨j, p, _, _, _, rfl⟩
    · exact .goto .pickNone
    · exact ⟨fun _ => .pick j p.pageTable, fun _ => ⟨rfl, fun _ => ctx_setProc _ _ _ _ (fun _ => rfl)⟩,
        fun _ => rfl, fun _ => rfl, fun _ => rfl, fun _ => ⟨rfl, rfl, rfl⟩, fun _ => .same (static_setProc _ _ _ _ (fun _ => rfl)),
        .same (length_setProc _ _ _) rfl, fun h => absurd rfl h⟩
  | switchTo root =>
    simp only [exec, bind_ok, Except.ok.injEq] at run
    obtain ⟨s₁, hs, rfl⟩ := run
    obtain ⟨_, rfl⟩ := switchTo_eq hs
    exact ⟨fun _ => .plain rfl, fun _ => ⟨rfl, fun _ => rfl⟩, fun _ => rfl, fun _ => rfl,
      fun _ => rfl, fun _ => ⟨rfl, rfl, rfl⟩, fun _ => .same rfl, .same rfl rfl, fun _ => rfl⟩
  | clearCurrent =>
    obtain rfl := Except.ok.inj run
    exact ⟨fun _ => .plain rfl, fun _ => ⟨rfl, fun _ => rfl⟩, fun _ => rfl, fun _ => rfl,
      fun _ => rfl, fun _ => ⟨rfl, rfl, rfl⟩, fun _ => .same rfl, .same rfl rfl, fun _ => rfl⟩
  | wfi =>
    obtain rfl := Except.ok.inj run
    exact .goto (.plain rfl)
  | fetchEntry =>
    simp only [exec, Proc.fetchEntry] at run
    split at run
    · cases run
    · rename_i hc
      obtain rfl := Except.ok.inj run
      exact .goto (.fetchEntry hc)
  | fetchUser =>
    simp only [exec, Proc.fetchUser] at run
    split at run
    · cases run
    · rename_i hc
      obtain rfl := Except.ok.inj run
      exact .goto (.fetchUser hc)
  | fetchFork =>
    simp only [exec, Proc.fetchFork] at run
    split at run
    · cases run
    · rename_i hc
      split at run
      · cases run
      · rename_i hf
        obtain rfl := Except.ok.inj run
        exact .goto (.fetchFork hc hf)
  | userEntry entry sp top =>
    simp only [exec, Proc.userEntry] at run
    split at run
    · cases run
    · obtain rfl := Except.ok.inj run
      exact .goto (.userEntry entry sp top)
  | enterUser | userret | trapRet | sysRet =>
    obtain rfl := Except.ok.inj run
    exact .mask rfl (.drop rfl)
  | kerneltrap f code stval => exact kerneltrap_turns run
  | loadImage prog fin =>
    simp only [exec, Proc.loadImage] at run
    split at run
    · cases run
    · simp only [bind_ok, Except.ok.injEq] at run
      obtain ⟨⟨t, P⟩, _, rfl⟩ := run
      exact .served (.of_mem (.phys s P)) (.loadImage t)
  | loadText prog table n fin =>
    simp only [exec, Proc.loadText] at run
    split at run
    · rename_i hn
      simp only [bind_ok, Except.ok.injEq] at run
      obtain ⟨P, _, rfl⟩ := run
      exact .served (.of_mem (.phys s P)) (.loadText hn)
    · rename_i hn
      obtain rfl := Except.ok.inj run
      exact .goto (.loadedText hn)
  | loadStack prog table fin =>
    simp only [exec, Proc.loadStack, bind_ok, Except.ok.injEq] at run
    obtain ⟨⟨stack, P₁⟩, _, P, _, rfl⟩ := run
    cases fin with
    | spawn => exact .served (.of_mem (.phys s P)) .loadSpawn
    | exec => exact .served (.of_mem (.phys s P)) .loadExec
  | spawnUser prog table =>
    simp only [exec, Proc.spawnUser, bind_ok, Except.ok.injEq] at run
    obtain ⟨⟨d, s₁⟩, hs, rfl⟩ := run
    exact .served (.spawnWith hs) (.spawnUser d)
  | execCommit prog table => exact execCommit_turns run
  | spawn =>
    simp only [exec, Proc.spawn, bind_ok, Except.ok.injEq] at run
    obtain ⟨⟨d, s₁⟩, hs, rfl⟩ := run
    exact .served (.spawnWith hs) (.spawn d)
  | fork f => exact fork_turns run
  | publish d =>
    simp only [exec, bind_ok, Except.ok.injEq] at run
    obtain ⟨s₁, hp, rfl⟩ := run
    obtain ⟨s₂, slot, hg, hnone, he, hproc, _⟩ := Proc.publish_eq hp
    have hs : Serves s s₂ := by
      rcases hg with rfl | hg
      · exact .refl _
      · exact .growProcs hg
    have ht := Turns.served (E := E) (k := k) hs (.plain (i := .publish d) rfl)
    refine ⟨ht.code, (fun h => by cases h), ?_, ?_, ?_, ?_, fun j => ?_,
      ⟨(Proc.publish_slots hp).grows, (Proc.publish_slots hp).room⟩, ?_⟩
    · rw [he]; exact ht.ticks
    · rw [he]; exact ht.input
    · rw [he]; exact ht.locked
    · rw [he]; exact ht.irq
    · show Heir _ _ _ _ (s₁.proc j)
      rw [hproc j]
      split
      · rename_i hj
        rw [hj, hnone]
        exact .born rfl
      · exact .same rfl
    · rw [he]; exact ht.next
  | freeUserTable table =>
    simp only [exec, bind_ok, Except.ok.injEq] at run
    obtain ⟨s₁, hf, rfl⟩ := run
    exact .served (.of_mem (.freeTable hf)) (.plain rfl)

end Osmium
