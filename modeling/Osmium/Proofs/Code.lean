import Osmium.Step

namespace Osmium

variable {T : Type}

/-- What a piece of code is about: control alone, a semaphore or channel, or
memory and the processes that own it. -/
inductive Kind where
  | inert | sync | space
  deriving DecidableEq

namespace Instr

/-- What a piece of code that waits to be run has in its hands. -/
def load : Instr T → Kind
  | .wait _ | .semCheck _ | .increment _ | .pushBack .. | .popFront _ => .sync
  | .getcharLoop (.user ..) | .getcharCheck (.user ..) | .gotChar (.user ..) _ => .space
  | .loadText .. | .loadStack .. | .spawnUser .. | .execCommit .. | .publish _
  | .freeUserTable _ => .space
  | _ => .inert

/-- What running a piece of code changes. -/
def kind : Instr T → Kind
  | .box .. | .unbox _ | .reap _ | .kerneltrap .. | .loadImage .. | .spawn | .fork _ => .space
  | i => i.load

end Instr

namespace Control

/-- Whose code the hart runs, and how far a switch in progress has come. -/
inductive Site where
  /-- the current process runs in the kernel -/
  | thread
  /-- it has given up `Running` and is on its way to the scheduler -/
  | parted (dead : Bool)
  /-- `exec` has changed the process's table but not yet `satp` -/
  | moving (old : Option Nat) (new : Nat)
  | user
  /-- `kmain`, or the scheduler without a current process -/
  | boot
  /-- the reap loop has passed the slots below -/
  | reaping (slot : Nat)
  | scanned
  /-- a slot is current but `satp` is still the kernel's -/
  | picked (slot root : Nat)
  | ready (slot : Nat)
  /-- back from a thread, with its table in `satp` -/
  | returned
  | restored

/-- What is known of the interrupt bookkeeping: the nesting depth with the
intent to be restored, no nesting, or one level with unknown intent. -/
inductive Level where
  | nest (depth : Nat) (on : Bool)
  | loose
  | held

namespace Site

/-- Sites at which interrupts may be on in S-mode. -/
def isOpen : Site → Bool
  | .thread | .boot => true
  | _ => false

/-- Sites inside a critical section of the scheduler. -/
def isDeep : Site → Bool
  | .thread | .boot | .user | .moving .. => false
  | _ => true

end Site

open Site Level

/-- Code that is well-behaved from a site and a level on: it keeps `push_off`
and `pop_off` balanced and does nothing that its site does not allow. `kroot` is
the kernel's table, `top` the top of the stack it runs on. -/
inductive Code (kroot top : Nat) : Site → Level → List (Instr T) → Prop where
  | pushOff (site : S.isOpen ∨ S.isDeep) (rest : Code kroot top S (nest (d + 1) q) k) :
      Code kroot top S (nest d q) (.pushOff :: k)
  | popOff (site : S.isOpen ∨ S.isDeep ∧ 0 < d) (rest : Code kroot top S (nest d q) k) :
      Code kroot top S (nest (d + 1) q) (.popOff :: k)
  | popHeld (site : S.isOpen) (rest : Code kroot top S loose k) :
      Code kroot top S held (.popOff :: k)
  | intrOn (site : S.isOpen) (rest : Code kroot top S (nest 0 true) k) :
      Code kroot top S (nest 0 q) (.intrOn :: k)
  | intrOnLoose (site : S.isOpen) (rest : Code kroot top S (nest 0 true) k) :
      Code kroot top S loose (.intrOn :: k)
  | intrOff (rest : Code kroot top thread (nest 0 false) k) :
      Code kroot top thread (nest 0 q) (.intrOff :: k)
  | intrOffMoving (rest : Code kroot top (moving old new) (nest 0 false) k) :
      Code kroot top (moving old new) (nest 0 false) (.intrOff :: k)
  | setIntena (rest : Code kroot top thread (nest 1 b) k) :
      Code kroot top thread held (.setIntena b :: k)
  | acquire (site : S.isOpen) (rest : Code kroot top S (nest (d + 1) q) k) :
      Code kroot top S (nest d q) (.acquire l :: k)
  | release (site : S.isOpen) (rest : Code kroot top S (nest d q) k) :
      Code kroot top S (nest (d + 1) q) (.release l :: k)
  | sched (rest : Code kroot top thread (nest 1 q) k) :
      Code kroot top (parted false) (nest 1 q) (.sched :: k)
  | schedLast : Code kroot top (parted true) (nest 1 q) [.sched, .unreachable]
  | yieldBody (site : S.isOpen) (rest : Code kroot top S (nest 1 q) k) :
      Code kroot top S (nest 1 q) (.yieldBody :: k)
  | tickCheck (site : S.isOpen) (rest : Code kroot top S (nest 0 q) k) :
      Code kroot top S (nest 1 q) (.tickCheck :: k)
  | sleepMark (rest : Code kroot top (parted false) (nest 1 q) k) :
      Code kroot top thread (nest 1 q) (.sleepMark cause :: k)
  | wakeAll (rest : Code kroot top S (nest (d + 1) q) k) :
      Code kroot top S (nest (d + 1) q) (.wakeAll chan :: k)
  | exit : Code kroot top thread (nest 0 q) [.exit]
  | exitMark (rest : Code kroot top (parted true) (nest 1 q) k) :
      Code kroot top thread (nest 1 q) (.exitMark :: k)
  | join (rest : Code kroot top thread (nest 0 q) k) :
      Code kroot top thread (nest 0 q) (.join pid :: k)
  | joinCheck (rest : Code kroot top thread (nest 0 q) k) :
      Code kroot top thread (nest 1 q) (.joinCheck pid :: k)
  | sleepTicks (rest : Code kroot top thread (nest 0 q) k) :
      Code kroot top thread (nest 0 q) (.sleepTicks n :: k)
  | tickWhile (rest : Code kroot top thread (nest 0 q) k) :
      Code kroot top thread (nest 0 q) (.tickWhile n :: k)
  | tickIf (rest : Code kroot top thread (nest 1 q) k) :
      Code kroot top thread (nest 1 q) (.tickIf n :: k)
  | onTick (site : S.isOpen) (rest : Code kroot top S (nest 0 q) k) :
      Code kroot top S (nest 0 q) (.onTick :: k)
  | ringPush (site : S.isOpen) (rest : Code kroot top S (nest d q) k) :
      Code kroot top S (nest d q) (.ringPush byte :: k)
  | getcharKernel (rest : Code kroot top thread (nest 0 q) k) :
      Code kroot top thread (nest 0 q) (.getcharLoop .kernel :: k)
  | getcharUser : Code kroot top thread (nest 0 false) [.getcharLoop (.user f ptr cap buf)]
  | checkKernel (rest : Code kroot top thread (nest 0 q) k) :
      Code kroot top thread (nest 2 q) (.getcharCheck .kernel :: k)
  | checkUser : Code kroot top thread (nest 2 false) [.getcharCheck (.user f ptr cap buf)]
  | gotKernel (rest : Code kroot top thread (nest 0 q) k) :
      Code kroot top thread (nest 0 q) (.gotChar .kernel byte :: k)
  | gotUser : Code kroot top thread (nest 0 false) [.gotChar (.user f ptr cap buf) byte]
  | wait (rest : Code kroot top thread (nest 0 q) k) :
      Code kroot top thread (nest 0 q) (.wait a :: k)
  | semCheck (rest : Code kroot top thread (nest 0 q) k) :
      Code kroot top thread (nest 2 q) (.semCheck a :: k)
  | increment (rest : Code kroot top thread (nest 2 q) k) :
      Code kroot top thread (nest 2 q) (.increment a :: k)
  | pushBack (rest : Code kroot top thread (nest 1 q) k) :
      Code kroot top thread (nest 1 q) (.pushBack ch item :: k)
  | popFront (rest : Code kroot top thread (nest 1 q) k) :
      Code kroot top thread (nest 1 q) (.popFront ch :: k)
  | body : Code kroot top thread (nest 0 true) [.body]
  | boot : Code kroot top boot (nest 0 true) [.boot]
  | box (site : S.isOpen) (rest : Code kroot top S (nest 0 q) k) :
      Code kroot top S (nest 0 q) (.box size a :: k)
  | unbox (site : S.isOpen) (rest : Code kroot top S (nest 0 q) k) :
      Code kroot top S (nest 0 q) (.unbox i :: k)
  | spawn (site : S.isOpen) (rest : Code kroot top S (nest 0 q) k) :
      Code kroot top S (nest 0 q) (.spawn :: k)
  | publish (site : S.isOpen) (rest : Code kroot top S (nest 1 q) k) :
      Code kroot top S (nest 1 q) (.publish p :: k)
  | loadImage (site : S.isOpen) (rest : Code kroot top S (nest 0 q) k) :
      Code kroot top S (nest 0 q) (.loadImage prog .spawn :: k)
  | loadText (site : S.isOpen) (rest : Code kroot top S (nest 0 q) k) :
      Code kroot top S (nest 0 q) (.loadText prog table i .spawn :: k)
  | loadStack (site : S.isOpen) (rest : Code kroot top S (nest 0 q) k) :
      Code kroot top S (nest 0 q) (.loadStack prog table .spawn :: k)
  | spawnUser (site : S.isOpen) (rest : Code kroot top S (nest 0 q) k) :
      Code kroot top S (nest 0 q) (.spawnUser prog table :: k)
  | execImage : Code kroot top thread (nest 0 false) [.loadImage prog .exec]
  | execText : Code kroot top thread (nest 0 false) [.loadText prog table i .exec]
  | execStack : Code kroot top thread (nest 0 false) [.loadStack prog table .exec]
  | execCommit : Code kroot top thread (nest 0 false) [.execCommit prog table]
  | switchMoving (frees : ∀ t, old = some t → .freeUserTable t ∈ k)
      (rest : Code kroot top thread (nest 0 false) k) :
      Code kroot top (moving old new) (nest 0 false) (.switchTo new :: k)
  | freeUserTable (rest : Code kroot top thread (nest 0 false) k) :
      Code kroot top thread (nest 0 false) (.freeUserTable table :: k)
  | fork : Code kroot top thread (nest 0 false) [.fork f]
  | kerneltrap : Code kroot top thread (nest 0 false) [.kerneltrap f cause stval]
  | trapRet : Code kroot top thread (nest 0 false) [.trapRet f]
  | sysRet : Code kroot top thread (nest 0 false) [.sysRet f result]
  | sretKernel (site : S.isOpen) (rest : Code kroot top S (nest 0 true) k) :
      Code kroot top S (nest 0 false) (.sretKernel :: k)
  | schedLoop : Code kroot top boot (nest 0 q) [.schedLoop]
  | schedLoopLoose : Code kroot top boot loose [.schedLoop]
  | reapFirst : Code kroot top boot (nest 1 true) [.reap 0]
  | reap : Code kroot top (reaping i) (nest 1 true) [.reap i]
  | pick : Code kroot top scanned (nest 1 true) [.pick]
  | switchPicked (rest : Code kroot top (ready i) (nest 1 true) k) :
      Code kroot top (picked i root) (nest 1 true) (.switchTo root :: k)
  | swtchTo (rest : Code kroot top returned held k) :
      Code kroot top (ready i) (nest 1 true) (.swtchTo i :: k)
  | switchBack (rest : Code kroot top restored held k) :
      Code kroot top returned held (.switchTo kroot :: k)
  | clearCurrent (rest : Code kroot top Site.boot held k) :
      Code kroot top restored held (.clearCurrent :: k)
  | wfi (rest : Code kroot top Site.boot (nest 0 true) k) :
      Code kroot top Site.boot (nest 0 true) (.wfi :: k)
  | fetchEntry : Code kroot top thread (nest 1 true) [.fetchEntry]
  | fetchUser : Code kroot top thread (nest 1 true) [.fetchUser]
  | fetchFork : Code kroot top thread (nest 1 true) [.fetchFork]
  | userEntry : Code kroot top thread (nest 0 q) [.userEntry entry sp top]
  | enterUser : Code kroot top thread (nest 0 q) [.enterUser entry sp top]
  | userret : Code kroot top thread (nest 0 false) [.userret f top]
  | umode : Code kroot top user loose [.umode]

namespace Code

variable {S : Site} {k : List (Instr T)}

/-- What the first piece of code tells of where it runs, and of what follows it. -/
def Leads (kroot top : Nat) (S : Site) (lvl : Level) : List (Instr T) → Prop
  | .popOff :: _ => (∃ d q, lvl = nest (d + 1) q) ∨ lvl = held
  | .setIntena b :: k => S = thread ∧ lvl = held ∧ Code kroot top thread (nest 1 b) k
  | .intrOn :: _ => (∃ q, lvl = nest 0 q) ∨ lvl = loose
  | .intrOff :: _ => ∃ q, lvl = nest 0 q
  | .release _ :: _ | .wakeAll _ :: _ => ∃ d q, lvl = nest (d + 1) q
  | .onTick :: k => ∃ q, lvl = nest 0 q ∧ Code kroot top S (nest 0 q) k
  | .ringPush _ :: k => ∃ d q, lvl = nest d q ∧ Code kroot top S (nest d q) k
  | .sretKernel :: k => lvl = nest 0 false ∧ Code kroot top S (nest 0 true) k
  | .sched :: k => ∃ q, lvl = nest 1 q ∧ (S = parted false ∨ S = parted true ∧ k = [.unreachable])
  | .unreachable :: _ => False
  | .sleepMark _ :: _ | .exitMark :: _ => S = thread ∧ ∃ q, lvl = nest 1 q
  | .semCheck _ :: _ => S = thread ∧ ∃ q, lvl = nest 2 q
  | .join _ :: k | .sleepTicks _ :: k => S = thread ∧ ∃ q, lvl = nest 0 q ∧ Code kroot top thread (nest 0 q) k
  | .getcharLoop .kernel :: _ => S = thread
  | .getcharLoop (.user ..) :: k | .gotChar (.user ..) _ :: k | .execCommit .. :: k | .fork _ :: k
  | .kerneltrap .. :: k | .trapRet _ :: k | .sysRet .. :: k => S = thread ∧ lvl = nest 0 false ∧ k = []
  | .userret _ t :: k => S = thread ∧ lvl = nest 0 false ∧ t = top ∧ k = []
  | .freeUserTable _ :: _ => S = thread ∧ lvl = nest 0 false
  | .body :: k => S = thread ∧ lvl = nest 0 true ∧ k = []
  | .boot :: k => S = Site.boot ∧ lvl = nest 0 true ∧ k = []
  | .umode :: k => S = user ∧ lvl = loose ∧ k = []
  | .reap i :: k => (S = Site.boot ∨ S = reaping i) ∧ lvl = nest 1 true ∧ k = []
  | .pick :: _ => S = scanned
  | .switchTo root :: _ => (∃ old, S = moving old root) ∨ (∃ i, S = picked i root) ∨ root = kroot
  | .swtchTo i :: k => S = ready i ∧ lvl = nest 1 true ∧ Code kroot top returned held k
  | .fetchEntry :: k | .fetchUser :: k | .fetchFork :: k => S = thread ∧ lvl = nest 1 true ∧ k = []
  | .userEntry _ _ t :: k | .enterUser _ _ t :: k => S = thread ∧ (∃ q, lvl = nest 0 q) ∧ t = top ∧ k = []
  | _ => True

/-- One case analysis over the rules serves every proof that knows the first piece. -/
theorem leads {c : List (Instr T)} (h : Code kroot top S lvl c) : Leads kroot top S lvl c := by
  cases h with
  | popOff => exact .inl ⟨_, _, rfl⟩
  | popHeld | intrOnLoose => exact .inr rfl
  | intrOn => exact .inl ⟨_, rfl⟩
  | intrOff | intrOffMoving => exact ⟨_, rfl⟩
  | setIntena rest | swtchTo rest => exact ⟨rfl, rfl, rest⟩
  | release | wakeAll => exact ⟨_, _, rfl⟩
  | onTick _ rest => exact ⟨_, rfl, rest⟩
  | ringPush _ rest => exact ⟨_, _, rfl, rest⟩
  | sretKernel _ rest => exact ⟨rfl, rest⟩
  | sched => exact ⟨_, rfl, .inl rfl⟩
  | schedLast => exact ⟨_, rfl, .inr ⟨rfl, rfl⟩⟩
  | sleepMark | exitMark | semCheck => exact ⟨rfl, _, rfl⟩
  | join rest | sleepTicks rest => exact ⟨rfl, _, rfl, rest⟩
  | getcharKernel | pick => exact rfl
  | getcharUser | gotUser | execCommit | fork | kerneltrap | trapRet | sysRet | body | boot | umode
  | fetchEntry | fetchUser | fetchFork => exact ⟨rfl, rfl, rfl⟩
  | userret => exact ⟨rfl, rfl, rfl, rfl⟩
  | freeUserTable => exact ⟨rfl, rfl⟩
  | reapFirst => exact ⟨.inl rfl, rfl, rfl⟩
  | reap => exact ⟨.inr rfl, rfl, rfl⟩
  | switchMoving => exact .inl ⟨_, rfl⟩
  | switchPicked => exact .inr (.inl ⟨_, rfl⟩)
  | switchBack => exact .inr (.inr rfl)
  | userEntry | enterUser => exact ⟨rfl, ⟨_, rfl⟩, rfl, rfl⟩
  | _ => trivial

/-- Where the interrupt enable is not known, code may assume it is on. -/
theorem of_loose (h : Code kroot top S loose k) (hs : S.isOpen) :
    Code kroot top S (nest 0 true) k := by
  cases h with
  | intrOnLoose site rest => exact .intrOn site rest
  | schedLoopLoose => exact .schedLoop
  | umode => cases hs

theorem sleep (h : Code kroot top thread (nest 1 q) k) :
    Code kroot top thread (nest 1 q) (Proc.sleep cause ++ k) := .sleepMark (.sched h)

theorem wakeup (hs : S.isOpen ∨ S.isDeep ∧ 0 < d) (h : Code kroot top S (nest d q) k) :
    Code kroot top S (nest d q) (Proc.wakeup chan ++ k) :=
  .pushOff (hs.imp_right And.left) (.wakeAll (.popOff hs h))

theorem yieldNow (hs : S.isOpen) (h : Code kroot top S (nest 0 q) k) :
    Code kroot top S (nest 0 q) (Proc.yieldNow ++ k) :=
  .pushOff (.inl hs) (.yieldBody hs (.popOff (.inl hs) h))

theorem exitCode : Code (T := T) kroot top thread (nest 0 q) Proc.exitCode :=
  .pushOff (.inl rfl) (.exitMark (wakeup (.inr ⟨rfl, by decide⟩) .schedLast))

theorem threadEntry : Code (T := T) kroot top thread held Proc.threadEntry :=
  .popHeld rfl (.intrOnLoose rfl (.pushOff (.inl rfl) .fetchEntry))

theorem entryCode (e : Entry) : Code (T := T) kroot top thread (nest 1 true) (Proc.entryCode e) := by
  cases e with
  | kernel => exact .popOff (.inl rfl) .body
  | userThreadBody => exact .popOff (.inl rfl) (.pushOff (.inl rfl) .fetchUser)
  | forkretBody => exact .popOff (.inl rfl) (.pushOff (.inl rfl) .fetchFork)

theorem publishing (hs : S.isOpen) (h : Code kroot top S (nest 0 q) k) :
    Code kroot top S (nest 0 q) (Proc.publishing p ++ k) :=
  .pushOff (.inl hs) (.publish hs (.popOff (.inl hs) h))

theorem waitCode (h : Code kroot top thread (nest 0 q) k) :
    Code kroot top thread (nest 0 q) (Sync.waitCode a ++ k) :=
  .pushOff (.inl rfl) (.acquire rfl (.semCheck h))

theorem signal (E : Env) (h : Code kroot top thread (nest 0 q) k) :
    Code kroot top thread (nest 0 q) (Sync.signal E a ++ k) :=
  .pushOff (.inl rfl) (.acquire rfl (.increment (.release rfl (.popOff (.inl rfl)
    (wakeup (.inl rfl) h)))))

theorem send (E : Env) (item : T) (h : Code kroot top thread (nest 0 q) k) :
    Code kroot top thread (nest 0 q) (Sync.send E ch item ++ k) :=
  .wait (.acquire rfl (.pushBack (.release rfl (signal E h))))

theorem recv (E : Env) (h : Code kroot top thread (nest 0 q) k) :
    Code kroot top thread (nest 0 q) (Sync.recv E ch ++ k) :=
  .wait (.acquire rfl (.popFront (.release rfl (signal E h))))

theorem op (E : Env) (o : Op T) (h : Code kroot top thread (nest 0 q) k) :
    Code kroot top thread (nest 0 q) (o.code E ++ k) := by
  cases o with
  | yieldNow => exact yieldNow rfl h
  | spawn => exact .spawn rfl h
  | spawnUser prog => exact .loadImage rfl h
  | wait n => exact .wait h
  | signal n => exact signal E h
  | send channel item => exact send E item h
  | recv channel => exact recv E h
  | join pid => exact .join h
  | sleepTicks n => exact .sleepTicks h
  | getchar => exact .getcharKernel h
  | box size a => exact .box rfl h
  | unbox i => exact .unbox rfl h

theorem earlyOp (E : Env) (o : Op T) (he : o.early = true)
    (h : Code kroot top Site.boot (nest 0 q) k) :
    Code kroot top Site.boot (nest 0 q) (o.code E ++ k) := by
  cases o with
  | spawn => exact .spawn rfl h
  | spawnUser prog => exact .loadImage rfl h
  | box size a => exact .box rfl h
  | unbox i => exact .unbox rfl h
  | _ => cases he

theorem handler (hs : S.isOpen) (h : Code kroot top S (nest 0 q) k) :
    Code kroot top S (nest 0 q) (Timer.handler ++ k) :=
  .onTick hs (wakeup (.inl hs) (.pushOff (.inl hs) (.tickCheck hs h)))

theorem onInput (E : Env) (hs : S.isOpen) (h : Code kroot top S (nest 0 q) k) :
    Code kroot top S (nest 0 q) (Console.onInput E byte ++ k) :=
  .acquire hs (.ringPush hs (.release hs (wakeup (.inl hs) h)))

theorem irq (E : Env) (i : Irq) (hs : S.isOpen) (h : Code kroot top S (nest 0 q) k) :
    Code kroot top S (nest 0 q) (i.code E ++ k) := by
  cases i with
  | timer => exact handler hs h
  | uart bytes =>
    induction bytes with
    | nil => exact h
    | cons byte bytes ih =>
      simp only [Irq.code, List.flatMap_cons, List.append_assoc] at ih ⊢
      exact onInput E hs ih

/-- The scheduler's code around the thread it picked. -/
theorem afterSwitch (s : Sys T) :
    Code s.kernelRoot top returned held (Proc.afterSwitch s) :=
  .switchBack (.clearCurrent (.popHeld rfl .schedLoopLoose))

end Code
end Control
end Osmium
