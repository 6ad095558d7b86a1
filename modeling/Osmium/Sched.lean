import Osmium.Machine

namespace Osmium
open Lib

variable {T : Type}

namespace Spinlock

def pushOff (h : Hart T) : Hart T :=
  let old := h.sie
  { h with
    sie := false
    intena := if h.noff = 0 then old else h.intena
    noff := h.noff + 1 }

/-- Enabled interrupts or a missing `push_off` fail the debug assertions. -/
def popOff (h : Hart T) : Except Panic (Hart T) :=
  if h.sie then .error .popOff
  else if h.noff = 0 then .error .popOff
  else .ok { h with
    noff := h.noff - 1
    sie := if h.noff = 1 ∧ h.intena then true else h.sie }

/-- A lock that is taken twice on the only hart spins forever. -/
def acquire (s : Sys T) (l : LockId) : Except Panic (Sys T) :=
  if s.locked l then .error .deadlock
  else .ok { s with
    hart := pushOff s.hart
    locked := fun l' => if l' = l then true else s.locked l' }

def release (s : Sys T) (l : LockId) : Except Panic (Sys T) := do
  let h ← popOff s.hart
  .ok { s with
    hart := h
    locked := fun l' => if l' = l then false else s.locked l' }

end Spinlock

namespace Proc

/-- `sleep`: mark the caller, then hand over the hart. -/
def sleep (cause : Cause) : List (Instr T) := [.sleepMark cause, .sched]

def wakeup (chan : Nat) : List (Instr T) := [.pushOff, .wakeAll chan, .popOff]

def yieldNow : List (Instr T) := [.pushOff, .yieldBody, .popOff]

/-- `exit` after its first lines; a zombie is never resumed. -/
def exitCode : List (Instr T) :=
  [.pushOff, .exitMark] ++ wakeup exitChan ++ [.sched, .unreachable]

/-- First code every thread runs. It arrives holding the scheduler's
`push_off` level. -/
def threadEntry : List (Instr T) := [.popOff, .intrOn, .pushOff, .fetchEntry]

/-- The body a thread was created with. Only a kernel thread's returns, and
`thread_entry` then calls `exit`. -/
def entryCode : Entry → List (Instr T)
  | .kernel => [.popOff, .body]
  | .userThreadBody => [.popOff, .pushOff, .fetchUser]
  | .forkretBody => [.popOff, .pushOff, .fetchFork]

/-- Change the state of the calling process. -/
def setState (s : Sys T) (state : State) : Except Panic (Sys T) :=
  match s.currentProc with
  | none => .error .noCurrent
  | some (i, _) => .ok (s.setProc i (fun p => { p with state := state }))

/-- Save the rest of the caller's code as its context and take the scheduler's.
The interrupt intent is part of what the caller resumes with. -/
def sched (s : Sys T) (k : List (Instr T)) : Except Panic (Sys T) :=
  if s.hart.noff ≠ 1 then .error .schedDepth
  else match s.currentProc with
    | none => .error .noCurrent
    | some (i, p) =>
      if p.state = .running then .error .stillRunning
      else
        let saved : Context T := ⟨.setIntena s.hart.intena :: k, s.hart.stack⟩
        let s := s.setProc i (fun p => { p with context := saved })
        .ok { s with
          hart := { s.hart with code := s.schedulerCtx.code, stack := s.schedulerCtx.stack }
          schedulerCtx := ⟨[], s.schedulerCtx.stack⟩ }

def yieldBody (s : Sys T) (k : List (Instr T)) : Except Panic (Sys T) :=
  match s.current with
  | none => .ok (s.goto k)
  | some _ => do
    let s ← setState s .runnable
    .ok (s.goto (.sched :: k))

/-- `on_tick_preempt` under its first `push_off`. -/
def tickCheck (s : Sys T) (k : List (Instr T)) : Except Panic (Sys T) :=
  match s.current with
  | none => .ok (s.goto (.popOff :: k))
  | some _ =>
    match s.currentProc with
    | none => .error .noCurrent
    | some (_, p) =>
      if p.state = .running then .ok (s.goto (.popOff :: yieldNow ++ k))
      else .ok (s.goto (.popOff :: k))

def wakeProc (chan : Nat) (p : Process T) : Process T :=
  if p.state = .sleeping chan then { p with state := .runnable } else p

def wakeAll (s : Sys T) (chan : Nat) : Sys T :=
  { s with procs := s.procs.map (Option.map (wakeProc chan)) }

/-- Is a process with this pid there and not yet a zombie? -/
def stillRunning (s : Sys T) (pid : Nat) : Bool :=
  s.procs.any (fun o => o.any (fun p => p.pid = pid ∧ p.state ≠ .zombie))

def joinCheck (s : Sys T) (pid : Nat) (k : List (Instr T)) : Sys T :=
  if stillRunning s pid then s.goto (sleep .exit ++ [.popOff, .join pid] ++ k)
  else s.goto (.popOff :: k)

def fetchEntry (s : Sys T) : Except Panic (Sys T) :=
  match s.currentProc with
  | none => .error .noCurrent
  | some (_, p) => .ok (s.goto (entryCode p.entry))

/-- One slot of the round-robin scan. -/
def isRunnable (s : Sys T) (i : Nat) : Bool := (s.proc i).any (fun p => p.state = .runnable)

/-- The first runnable slot from `next_slot` on, around the table. -/
def scan (s : Sys T) : Option Nat :=
  let n := s.procs.length
  ((List.range n).map (fun i => (s.nextSlot + i) % n)).find? (isRunnable s)

/-- The scheduler's code around the thread it runs. -/
def afterSwitch (s : Sys T) : List (Instr T) :=
  [.switchTo s.kernelRoot, .clearCurrent, .popOff, .schedLoop]

def pick (s : Sys T) : Except Panic (Sys T) :=
  match scan s with
  | none => .ok (s.goto [.popOff, .intrOn, .wfi, .schedLoop])
  | some i =>
    match s.proc i with
    | none => .error .noCurrent
    | some p =>
      let s := s.setProc i (fun p => { p with state := .running })
      .ok (Sys.goto { s with nextSlot := i + 1, current := some i }
        ([.switchTo p.pageTable, .swtchTo i] ++ afterSwitch s))

/-- Save the scheduler's context and take the thread's. The thread's saved
context is used up; its next `sched` writes it again. -/
def swtchTo (s : Sys T) (i : Nat) (k : List (Instr T)) : Except Panic (Sys T) :=
  match s.proc i with
  | none => .error .noCurrent
  | some p =>
    let s' := s.setProc i (fun p => { p with context := ⟨[], p.context.stack⟩ })
    .ok { s' with
      schedulerCtx := ⟨k, s.hart.stack⟩
      hart := { s.hart with code := p.context.code, stack := p.context.stack } }

def switchTo (s : Sys T) (root : Nat) : Except Panic (Sys T) :=
  if root = 0 then .error .nullRoot
  else .ok { s with hart := { s.hart with satp := root } }

end Proc
end Osmium
