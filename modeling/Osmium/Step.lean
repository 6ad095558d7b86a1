import Osmium.Syscall

namespace Osmium
open Lib Vm

variable {T : Type}

namespace Trap

/-- The frame `kernelvec` saves for a trap from U-mode. -/
def frameOf (h : Hart T) : TrapFrame :=
  { regs := h.regs, sepc := h.pc, sstatus := { spp := false, spie := h.sie } }

/-- A trap from U-mode: onto the kernel stack that `sscratch` names. -/
def fromUser (s : Sys T) (code : List (Instr T)) : Sys T :=
  { s with
    hart := { s.hart with
      code := code
      stack := .kernel s.hart.sscratch
      sie := false
      sscratch := 0 } }

/-- A trap from S-mode: below the interrupted frames of the same stack. -/
def fromKernel (s : Sys T) (code : List (Instr T)) : Sys T :=
  { s with hart := { s.hart with code := code ++ .sretKernel :: s.hart.code, sie := false } }

/-- The way back to U-mode re-arms `sscratch` with the top of the trap stack. -/
def ret (s : Sys T) (f : TrapFrame) : Sys T :=
  let top := match s.hart.stack with
    | .kernel top => top
    | _ => 0
  { s with
    hart := { s.hart with
      code := [.umode]
      stack := .user
      sie := f.sstatus.spie
      sscratch := top
      regs := restore f (loadGp ++ [.sp]) s.hart.regs
      pc := f.sepc } }

/-- Length of the instruction at `pc`, read through `satp` with `SUM` set. -/
def instructionLen (s : Sys T) (pc : Nat) : Except Panic Nat := do
  let (low, _) ← Syscall.readBytes s.phys.mem s.hart.satp pc 2
  .ok (if (low.headD 0).toNat % 4 = 3 then 4 else 2)

/-- The exceptions of U-mode: breakpoints, calls, faults that a heap page cures,
and faults that end the process. -/
def kerneltrap (E : Env) (s : Sys T) (f : TrapFrame) (code stval : Nat) : Except Panic (Sys T) :=
  if code = 3 then do
    let len ← instructionLen s f.sepc
    let sepc ← Heap.checked (f.sepc + len)
    .ok (s.goto [.trapRet { f with sepc }])
  else if code = 8 then Syscall.dispatch E s f
  else if code = 13 ∨ code = 15 then do
    match ← Proc.servicePageFault s stval with
    | (true, s) => .ok (s.goto [.trapRet f])
    | (false, s) => .ok (s.goto [.exit])
  else .ok (s.goto [.exit])

end Trap

namespace Proc

/-- Drop a reaped process: its fork frame, its stack, its box. -/
def dropProcess (s : Sys T) (p : Process T) : Except Panic (Sys T) := do
  let s ← dropFrame s p.forkFrame
  let s ← s.dealloc p.kstack
  s.dealloc p.box

/-- One slot of the reap loop. -/
def reap (E : Env) (s : Sys T) (i : Nat) : Except Panic (Sys T) :=
  match s.proc i with
  | none => .ok s
  | some p =>
    if p.state = .zombie then do
      let s ← (match p.userTable with
        | none => .ok s
        | some table => freeTable E s table)
      let s ← dropProcess s p
      .ok { s with procs := s.procs.set i none }
    else .ok s

/-- The reap loop, then the scan. -/
def reapLoop (E : Env) (s : Sys T) (i : Nat) : Except Panic (Sys T) :=
  if i < s.procs.length then do
    let s ← reap E s i
    .ok (s.goto [.reap (i + 1)])
  else .ok (s.goto [.pick])

/-- A kernel thread's own use of the heap. -/
def box (s : Sys T) (size k : Nat) : Except Panic (Sys T) :=
  if size = 0 then .ok s
  else do
    let (p, s) ← s.alloc size k
    .ok { s with boxes := s.boxes ++ [⟨p, size⟩] }

def unbox (s : Sys T) (i : Nat) : Except Panic (Sys T) :=
  match s.boxes[i]? with
  | none => .ok s
  | some a => do
    let s ← s.dealloc a.ptr
    .ok { s with boxes := s.boxes.eraseIdx i }

end Proc

/-- One piece of kernel code, `k` being the rest. Bodies and user code move by
steps of their own. -/
def exec (E : Env) (junk : Regs) (s : Sys T) (i : Instr T) (k : List (Instr T)) :
    Except Panic (Sys T) :=
  match i with
  | .pushOff => .ok (Sys.goto { s with hart := Spinlock.pushOff s.hart } k)
  | .popOff => do
    let h ← Spinlock.popOff s.hart
    .ok (Sys.goto { s with hart := h } k)
  | .intrOn => .ok (Sys.goto { s with hart := { s.hart with sie := true } } k)
  | .intrOff => .ok (Sys.goto { s with hart := { s.hart with sie := false } } k)
  | .setIntena b => .ok (Sys.goto { s with hart := { s.hart with intena := b } } k)
  | .acquire l => do
    let s ← Spinlock.acquire s l
    .ok (s.goto k)
  | .release l => do
    let s ← Spinlock.release s l
    .ok (s.goto k)
  | .sched => Proc.sched s k
  | .yieldBody => Proc.yieldBody s k
  | .tickCheck => Proc.tickCheck s k
  | .sleepMark cause => do
    let s ← Proc.setState s (.sleeping (cause.chan E))
    .ok (s.goto k)
  | .wakeAll chan => .ok ((Proc.wakeAll s chan).goto k)
  | .exit => .ok (s.goto Proc.exitCode)
  | .exitMark => do
    let s ← Proc.setState s .zombie
    .ok (s.goto k)
  | .unreachable => .error .unreachable
  | .join pid => .ok (s.goto (.pushOff :: .joinCheck pid :: k))
  | .joinCheck pid => .ok (Proc.joinCheck s pid k)
  | .sleepTicks n => Timer.sleepTicks s n k
  | .tickWhile target => .ok (Timer.tickWhile s target k)
  | .tickIf target => .ok (Timer.tickIf s target k)
  | .onTick => .ok (Sys.goto { s with ticks := (s.ticks + 1) % 2 ^ 64 } k)
  | .ringPush byte => .ok ((Console.ringPush s byte).goto k)
  | .getcharLoop r => .ok (s.goto (Console.getcharCode r ++ k))
  | .getcharCheck r => .ok (Console.getcharCheck s r k)
  | .gotChar .kernel _ => .ok (s.goto k)
  | .gotChar (.user f ptr cap buf) byte => Syscall.readRest s f ptr cap buf byte
  | .wait a => .ok (s.goto (Sync.waitCode a ++ k))
  | .semCheck a => Sync.semCheck E s a k
  | .increment a => do
    let s ← Sync.increment s a
    .ok (s.goto k)
  | .pushBack ch item => .ok ((Sync.pushBack s ch item).goto k)
  | .popFront ch => do
    let s ← Sync.popFront s ch
    .ok (s.goto k)
  | .body => .ok s
  | .boot => .ok s
  | .umode => .ok s
  | .box size a => do
    let s ← Proc.box s size a
    .ok (s.goto k)
  | .unbox i => do
    let s ← Proc.unbox s i
    .ok (s.goto k)
  | .schedLoop => .ok (s.goto [.intrOn, .pushOff, .reap 0])
  | .reap i => Proc.reapLoop E s i
  | .pick => Proc.pick s
  | .switchTo root => do
    let s ← Proc.switchTo s root
    .ok (s.goto k)
  | .swtchTo i => Proc.swtchTo s i k
  | .clearCurrent => .ok (Sys.goto { s with current := none } k)
  | .wfi => .ok (s.goto k)
  | .fetchEntry => Proc.fetchEntry s
  | .fetchUser => Proc.fetchUser s k
  | .fetchFork => Proc.fetchFork s k
  | .userEntry entry sp top => Proc.userEntry s entry sp top k
  | .enterUser entry sp top => .ok { s with hart := Proc.enterUser s.hart junk entry sp top }
  | .userret f top => .ok { s with hart := Proc.userret s.hart f top }
  | .sretKernel => .ok (Sys.goto { s with hart := { s.hart with sie := true } } k)
  | .trapRet f => .ok (Trap.ret s f)
  | .sysRet f result => .ok (Trap.ret s (f.setA0 result))
  | .kerneltrap f code stval => Trap.kerneltrap E s f code stval
  | .loadImage prog fin => Proc.loadImage E s prog fin k
  | .loadText prog table i fin => Proc.loadText E s prog table i fin k
  | .loadStack prog table fin => Proc.loadStack s prog table fin k
  | .spawnUser prog table => Proc.spawnUser E s prog table k
  | .execCommit prog table => Proc.execCommit s prog table
  | .spawn => Proc.spawn E s k
  | .fork f => Proc.fork E s f
  | .publish d => do
    let s ← Proc.publish s d
    .ok (s.goto k)
  | .freeUserTable table => do
    let s ← Proc.freeTable E s table
    .ok (s.goto k)

/-- What the body of a kernel thread may call. A channel's semaphores are its
own; the other ones are numbered. -/
inductive Op (T : Type) where
  | yieldNow
  | spawn
  | spawnUser (prog : Program)
  | wait (n : Nat)
  | signal (n : Nat)
  | send (channel : Nat) (item : T)
  | recv (channel : Nat)
  | join (pid : Nat)
  | sleepTicks (n : Nat)
  | getchar
  | box (size k : Nat)
  | unbox (index : Nat)

namespace Op

def code (E : Env) : Op T → List (Instr T)
  | .yieldNow => Proc.yieldNow
  | .spawn => [.spawn]
  | .spawnUser prog => [.loadImage prog .spawn]
  | .wait n => [.wait (.sem n)]
  | .signal n => Sync.signal E (.sem n)
  | .send channel item => Sync.send E channel item
  | .recv channel => Sync.recv E channel
  | .join pid => [.join pid]
  | .sleepTicks n => [.sleepTicks n]
  | .getchar => [.getcharLoop .kernel]
  | .box size k => [.box size k]
  | .unbox index => [.unbox index]

/-- What `kmain` itself calls before it becomes the scheduler. -/
def early : Op T → Bool
  | .spawn | .spawnUser _ | .box .. | .unbox _ => true
  | _ => false

end Op

inductive Irq where
  | timer
  | uart (bytes : List UInt8)

def Irq.code (E : Env) : Irq → List (Instr T)
  | .timer => Timer.handler
  | .uart bytes => bytes.flatMap (Console.onInput E)

/-- The machine's moves. U-mode is free to compute anything, to store where its
table lets it, and to trap; an instruction that traps by design was fetched. -/
inductive Step (E : Env) : Sys T → Sys T → Prop where
  | exec (junk : Regs) (code : s.hart.code = i :: k) (run : exec E junk s i k = .ok s') :
      Step E s s'
  | call (op : Op T) (code : s.hart.code = .body :: k) :
      Step E s (s.goto (op.code E ++ .body :: k))
  | leave (code : s.hart.code = .body :: k) : Step E s (s.goto [.exit])
  | bootCall (op : Op T) (early : op.early = true) (code : s.hart.code = .boot :: k) :
      Step E s (s.goto (op.code E ++ .boot :: k))
  | bootDone (code : s.hart.code = .boot :: k) : Step E s (s.goto [.schedLoop])
  | interrupt (irq : Irq) (on : s.hart.sie = true) (kernel : s.hart.stack ≠ .user) :
      Step E s (Trap.fromKernel s (irq.code E))
  | userInterrupt (irq : Irq) (code : s.hart.code = .umode :: k) :
      Step E s (Trap.fromUser s (irq.code E ++ [.trapRet (Trap.frameOf s.hart)]))
  | userAlu (regs : Regs) (pc : Nat) (words : (∀ x, regs x < 2 ^ 64) ∧ pc < 2 ^ 64)
      (code : s.hart.code = .umode :: k) :
      Step E s { s with hart := { s.hart with regs := regs, pc := pc } }
  | userStore (va pa : Nat) (b : UInt8) (code : s.hart.code = .umode :: k)
      (mapped : Sv39.access s.phys.mem s.hart.satp va .store .user false = some pa) :
      Step E s { s with phys := { s.phys with mem := poke s.phys.mem pa b } }
  | userTrap (cause stval : Nat) (word : stval < 2 ^ 64) (code : s.hart.code = .umode :: k)
      (fetched : cause = 3 ∨ cause = 8 →
        (Sv39.access s.phys.mem s.hart.satp s.hart.pc .fetch .user false).isSome) :
      Step E s (Trap.fromUser s [.kerneltrap (Trap.frameOf s.hart) cause stval])

def semInit (E : Env) : SemId → Nat
  | .sem n => E.initial n
  | .empty channel => E.capacity channel
  | .full _ => 0

/-- `kmain` up to the first `intr_on`: seed the allocator, test it, build the
kernel's table, switch to it, seed the heap. -/
def kmain (E : Env) (reserved : Option (Nat × Nat)) (m : Mem) (regs : Regs) :
    Except Panic (Sys T) := do
  let P ← Kalloc.init E.allocStart reserved m
  let (a, P) ← allocPage P
  let (b, P) ← allocPage P
  let P ← Kalloc.free E.allocStart P a
  let P ← Kalloc.free E.allocStart P b
  let (root, P) ← kvmmake E.toLayout P
  let (m, heap) ← Heap.init E.toLayout P.mem { head := 0, freeBytes := 0 }
  .ok
    { phys := { P with mem := m }
      heap, kernelRoot := root
      procs := [], procsPtr := 0, procsCap := 0
      current := none, nextSlot := 0
      schedulerCtx := ⟨[], .boot⟩
      nextPid := 1, ticks := 0
      input := ⟨fun _ => 0, 0, 0⟩
      sem := fun a => ⟨semInit E a, 0, 0⟩
      chan := fun _ => ⟨[], [], []⟩
      locked := fun _ => false
      boxes := []
      hart :=
        { code := [.boot], stack := .boot
          sie := true, noff := 0, intena := false
          satp := root, sscratch := 0
          regs, pc := 0 } }

/-- The states of all runs in which nothing panics. -/
inductive Reachable (E : Env) (reserved : Option (Nat × Nat)) : Sys T → Prop where
  | boot (m : Mem) (regs : Regs) (run : kmain E reserved m regs = .ok s) : Reachable E reserved s
  | step (reach : Reachable E reserved s) (move : Step E s s') : Reachable E reserved s'

end Osmium
