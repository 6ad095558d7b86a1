import Osmium.Heap
import Osmium.Sv39
import Osmium.Trap

namespace Osmium
open Lib

/-- The user programs linked into the image. -/
inductive Program where
  | greeter | trespasser | badsys | uname | echoline | catfile | heapgrow | forker | forkexec | ush
  deriving DecidableEq, Repr

/-- A counting semaphore: one on its own, or one of the two of a channel. -/
inductive SemId where
  | sem (n : Nat)
  | empty (channel : Nat)
  | full (channel : Nat)
  deriving DecidableEq, Repr

/-- The spinlocks: those whose critical sections are spelled out below, and those
of the console, the two allocators and the file system, whose sections lie inside
one piece of code. -/
inductive LockId where
  | count (sem : SemId)
  | buf (channel : Nat)
  | input
  | console
  | heap
  | kmem
  | fs
  deriving DecidableEq, Repr

abbrev kstackSize : Nat := 16 * 1024
abbrev maxFds : Nat := 8
abbrev exitChan : Nat := 0xdead0001
abbrev tickChan : Nat := 0x711cc4a7
abbrev inputCap : Nat := 256

/-- What the build fixes: the image's layout with the programs in it, the
statics' addresses, the initial counts, and the names and contents of the ramfs. No program is empty or reaches up to
its stack. Statics that hold a lock are word-aligned and lie apart. -/
structure Env extends Layout where
  image : Program → Nat × Nat
  images : ∀ p, toLayout.userStart ≤ (image p).1 ∧ (image p).1 + (image p).2 ≤ toLayout.userEnd
  image_fits : ∀ p, 0 < (image p).2 ∧ Vm.userText + (image p).2 ≤ Vm.userStackTop - pageSize
  semAddr : SemId → Nat
  inputAddr : Nat
  semAddr_inj : ∀ a b, semAddr a = semAddr b → a = b
  semAddr_word : ∀ a, semAddr a % 8 = 0
  inputAddr_word : inputAddr % 8 = 0
  input_apart : ∀ a, semAddr a ≠ inputAddr
  initial : Nat → Nat
  capacity : Nat → Nat
  files : List (List UInt8 × List UInt8)
  files_fit : ∀ f ∈ files, f.2.length < 2 ^ 63
  processSize : Nat
  processSize_pos : 0 < processSize ∧ processSize < 2 ^ 16

/-- What a thread other than a semaphore's waiter sleeps for. -/
inductive Cause where
  | exit | tick | input
  deriving DecidableEq, Repr

/-- The value it sleeps on. -/
def Cause.chan (E : Env) : Cause → Nat
  | .exit => exitChan
  | .tick => tickChan
  | .input => E.inputAddr

inductive State where
  | runnable
  | running
  | sleeping (chan : Nat)
  | zombie
  deriving DecidableEq, Repr

structure FdEntry where
  fileIdx : Nat
  offset : Nat
  deriving DecidableEq, Repr

/-- What a thread starts with: a function of the kernel, or one of the two
bodies that drop to user mode. -/
inductive Entry where
  | kernel
  | userThreadBody
  | forkretBody
  deriving DecidableEq, Repr

/-- The fields of a process apart from its state and context. `box` is the
address of the `Box<Process>`, `kstack` that of the stack it owns; a fork frame
is kept with the address of its box. `image` names the program loaded last, which
the source keeps nowhere. -/
structure ProcData where
  pid : Nat
  entry : Entry
  kstackTop : Nat
  userEntry : Nat
  userSp : Nat
  pageTable : Nat
  userTable : Option Nat
  heapBase : Nat
  heapBrk : Nat
  fds : List (Option FdEntry)
  forkFrame : Option (Nat × TrapFrame)
  kstack : Nat
  box : Nat
  image : Option Program

/-- Who is waiting for a byte: a kernel thread, or a `SYS_READ` that already
owns its kernel buffer. -/
inductive Reader where
  | kernel
  | user (frame : TrapFrame) (ptr cap buf : Nat)

/-- What becomes of a freshly loaded address space. -/
inductive Finish where
  | spawn
  | exec
  deriving DecidableEq, Repr

/-- The kernel's code, as the pieces between which an interrupt can land or a
context can be switched. A hart's code is the list of pieces still to run: what
a return address stack holds on the machine. -/
inductive Instr (T : Type) where
  | pushOff | popOff | intrOn | intrOff
  | setIntena (value : Bool)
  | acquire (lock : LockId)
  | release (lock : LockId)
  | sched | yieldBody | tickCheck
  | sleepMark (cause : Cause)
  | wakeAll (chan : Nat)
  | exit | exitMark | unreachable
  | join (pid : Nat)
  | joinCheck (pid : Nat)
  | sleepTicks (n : Nat)
  | tickWhile (target : Nat)
  | tickIf (target : Nat)
  | onTick
  | ringPush (byte : UInt8)
  | getcharLoop (reader : Reader)
  | getcharCheck (reader : Reader)
  | gotChar (reader : Reader) (byte : UInt8)
  | wait (sem : SemId)
  | semCheck (sem : SemId)
  | increment (sem : SemId)
  | pushBack (channel : Nat) (item : T)
  | popFront (channel : Nat)
  | body | boot
  | box (size align : Nat)
  | unbox (index : Nat)
  | schedLoop
  | reap (slot : Nat)
  | pick
  | switchTo (root : Nat)
  | swtchTo (slot : Nat)
  | clearCurrent | wfi
  | fetchEntry | fetchUser | fetchFork
  | userEntry (entry sp kstackTop : Nat)
  | enterUser (entry sp kstackTop : Nat)
  | userret (frame : TrapFrame) (kstackTop : Nat)
  | umode
  | sretKernel
  | trapRet (frame : TrapFrame)
  | sysRet (frame : TrapFrame) (result : Nat)
  | kerneltrap (frame : TrapFrame) (code stval : Nat)
  | loadImage (prog : Program) (finish : Finish)
  | loadText (prog : Program) (table i : Nat) (finish : Finish)
  | loadStack (prog : Program) (table : Nat) (finish : Finish)
  | spawnUser (prog : Program) (table : Nat)
  | execCommit (prog : Program) (table : Nat)
  | spawn
  | fork (frame : TrapFrame)
  | publish (proc : ProcData)
  | freeUserTable (table : Nat)

/-- The stack the hart executes on. -/
inductive Stack where
  | boot
  | kernel (top : Nat)
  | user
  deriving DecidableEq, Repr

structure Context (T : Type) where
  code : List (Instr T)
  stack : Stack

structure Process (T : Type) extends ProcData where
  state : State
  context : Context T

/-- The hart and the interrupt bookkeeping. `regs` and `pc` are the user's; the
kernel's own registers are the code list. -/
structure Hart (T : Type) where
  code : List (Instr T)
  stack : Stack
  sie : Bool
  noff : Nat
  intena : Bool
  satp : Nat
  sscratch : Nat
  regs : Regs
  pc : Nat

/-- A semaphore's count, and for the record how often it was raised and how
many waits came through. -/
structure Sem where
  count : Nat
  raised : Nat
  passed : Nat

/-- A channel's buffer, and for the record everything that ever went in and
came out. -/
structure Chan (T : Type) where
  buf : List T
  pushed : List T
  popped : List T

/-- The console's ring buffer. -/
structure Input where
  buf : Nat → UInt8
  r : Nat
  w : Nat

/-- The whole machine. `boxes` are the heap payloads that kernel threads hold. -/
structure Sys (T : Type) where
  phys : Phys
  heap : Heap
  kernelRoot : Nat
  procs : List (Option (Process T))
  procsPtr : Nat
  procsCap : Nat
  current : Option Nat
  nextSlot : Nat
  schedulerCtx : Context T
  nextPid : Nat
  ticks : Nat
  input : Input
  sem : SemId → Sem
  chan : Nat → Chan T
  locked : LockId → Bool
  boxes : List Heap.Live
  hart : Hart T

variable {T : Type}

namespace Sys

/-- Go on with the given code. -/
def goto (s : Sys T) (code : List (Instr T)) : Sys T :=
  { s with hart := { s.hart with code := code } }

/-- The process in a slot. -/
def proc (s : Sys T) (i : Nat) : Option (Process T) := (s.procs[i]?).join

/-- Change the process in a slot. -/
def setProc (s : Sys T) (i : Nat) (g : Process T → Process T) : Sys T :=
  { s with procs := s.procs.modify i (Option.map g) }

/-- The calling process and its slot. -/
def currentProc (s : Sys T) : Option (Nat × Process T) :=
  s.current.bind (fun i => (s.proc i).map (fun p => (i, p)))

end Sys
end Osmium
