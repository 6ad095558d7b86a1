import Osmium.Sync

namespace Osmium
open Lib Vm

variable {T : Type}

/-- A layout of the given size, aligned to `2 ^ k`; larger ones overflow the
capacity. -/
def Heap.request (size k : Nat) : Except Panic Request :=
  if h : size + (2 ^ k - 1) < 2 ^ 63 then .ok ⟨size, 2 ^ k, ⟨k, rfl⟩, h⟩ else .error .overflow

namespace Sys

/-- The global allocator. A null result stops the kernel. -/
def alloc (s : Sys T) (size k : Nat) : Except Panic (Nat × Sys T) := do
  let r ← Heap.request size k
  match ← Heap.allocInner s.phys.mem s.heap r with
  | (none, _, _) => .error .outOfHeap
  | (some p, m, h) => .ok (p, { s with phys := { s.phys with mem := m }, heap := h })

def dealloc (s : Sys T) (p : Nat) : Except Panic (Sys T) := do
  let (m, h) ← Heap.deallocInner s.phys.mem s.heap p
  .ok { s with phys := { s.phys with mem := m }, heap := h }

end Sys

namespace Proc

/-- Bytes of a boxed `TrapFrame`. -/
abbrev frameSize : Nat := 264

/-- Build a process up to its publication. -/
def spawnWith (E : Env) (s : Sys T) (entry : Entry) (configure : ProcData → ProcData) :
    Except Panic (ProcData × Sys T) := do
  let (kstack, s) ← s.alloc kstackSize 0
  let pid := s.nextPid
  let (box, s) ← Sys.alloc { s with nextPid := pid + 1 } E.processSize 3
  .ok (configure
    { pid, entry, kstack, box
      kstackTop := (kstack + kstackSize) / 16 * 16
      userEntry := 0
      userSp := 0
      pageTable := s.kernelRoot
      userTable := none
      heapBase := 0
      heapBrk := 0
      fds := List.replicate maxFds none
      forkFrame := none
      image := none }, s)

/-- The critical section at the end of `spawn_with`. -/
def publishing (d : ProcData) : List (Instr T) := [.pushOff, .publish d, .popOff]

/-- `Vec::push` on a full vector: a larger buffer, then the old one goes. -/
def growProcs (s : Sys T) : Except Panic (Sys T) :=
  if s.procs.length < s.procsCap then .ok s
  else do
    let cap := max (max (2 * s.procsCap) (s.procs.length + 1)) 4
    let (p, s') ← s.alloc (8 * cap) 3
    let s' ← (if s.procsCap = 0 then .ok s' else s'.dealloc s.procsPtr)
    .ok { s' with procsPtr := p, procsCap := cap }

/-- The forged context returns to `thread_entry` on the fresh stack. -/
def fresh (d : ProcData) : Process T :=
  { d with state := .runnable, context := ⟨threadEntry, .kernel d.kstackTop⟩ }

/-- Put a process into the first empty slot, or behind the last one. -/
def publish (s : Sys T) (d : ProcData) : Except Panic (Sys T) :=
  match s.procs.findIdx? Option.isNone with
  | some i => .ok { s with procs := s.procs.set i (some (fresh d)) }
  | none => do
    let s ← growProcs s
    .ok { s with procs := s.procs ++ [some (fresh d)] }

def attachUserSpace (table entry sp : Nat) (p : ProcData) : ProcData :=
  { p with
    pageTable := table
    userTable := some table
    userEntry := entry
    userSp := sp
    heapBase := userHeapBase
    heapBrk := userHeapBase }

def spawn (E : Env) (s : Sys T) (k : List (Instr T)) : Except Panic (Sys T) := do
  let (d, s) ← spawnWith E s .kernel id
  .ok (s.goto (publishing d ++ k))

/-- Pages of a program's text. -/
def npages (E : Env) (prog : Program) : Nat := ((E.image prog).2 + (pageSize - 1)) / pageSize

/-- `load_user_image` up to its loop. -/
def loadImage (E : Env) (s : Sys T) (prog : Program) (fin : Finish) (k : List (Instr T)) :
    Except Panic (Sys T) :=
  if (E.image prog).2 = 0 then .error .emptyProgram
  else do
    let (table, P) ← makeUserTable s.phys s.kernelRoot
    .ok (Sys.goto { s with phys := P } (.loadText prog table 0 fin :: k))

/-- One page of the program, copied into a private page. -/
def loadPage (E : Env) (P : Phys) (prog : Program) (table i : Nat) : Except Panic Phys := do
  let (src, len) := E.image prog
  let (page, P) ← allocPage P
  let off := i * pageSize
  let n := min (len - off) pageSize
  mapPages { P with mem := copy P.mem (src + off) page n } table (userText + off) page pageSize
    (pteR ||| pteX ||| pteU)

def loadText (E : Env) (s : Sys T) (prog : Program) (table i : Nat) (fin : Finish)
    (k : List (Instr T)) : Except Panic (Sys T) :=
  if i < npages E prog then do
    let P ← loadPage E s.phys prog table i
    .ok (Sys.goto { s with phys := P } (.loadText prog table (i + 1) fin :: k))
  else .ok (s.goto (.loadStack prog table fin :: k))

/-- The stack page, and on to what the image was loaded for. -/
def loadStack (s : Sys T) (prog : Program) (table : Nat) (fin : Finish) (k : List (Instr T)) :
    Except Panic (Sys T) := do
  let (stack, P) ← allocPage s.phys
  let P ← mapPages P table (userStackTop - pageSize) stack pageSize (pteR ||| pteW ||| pteU)
  let next : Instr T := match fin with
    | .spawn => .spawnUser prog table
    | .exec => .execCommit prog table
  .ok (Sys.goto { s with phys := P } (next :: k))

/-- `spawn_user` behind `load_user_image`. -/
def spawnUser (E : Env) (s : Sys T) (prog : Program) (table : Nat) (k : List (Instr T)) :
    Except Panic (Sys T) := do
  let (d, s) ← spawnWith E s .userThreadBody
    (fun p => { attachUserSpace table userText userStackTop p with image := some prog })
  .ok (s.goto (publishing d ++ k))

/-- Drop a boxed fork frame. -/
def dropFrame (s : Sys T) (frame : Option (Nat × TrapFrame)) : Except Panic (Sys T) :=
  match frame with
  | none => .ok s
  | some (b, _) => s.dealloc b

/-- What `exec` changes in the calling process. -/
def takeSpace (prog : Program) (table : Nat) (p : Process T) : Process T :=
  { p with
    toProcData :=
      { attachUserSpace table userText userStackTop p.toProcData with
        forkFrame := none
        image := some prog } }

/-- The rest of `exec`: onto the new table, then the old one goes. -/
def execRest (table : Nat) (p : Process T) : List (Instr T) :=
  [.intrOff, .switchTo table] ++ (p.userTable.map .freeUserTable).toList ++
    [.enterUser userText userStackTop p.kstackTop]

/-- `exec` behind `load_user_image`: the process takes the new space. -/
def execCommit (s : Sys T) (prog : Program) (table : Nat) : Except Panic (Sys T) :=
  match s.currentProc with
  | none => .error .noCurrent
  | some (i, p) => do
    let s ← dropFrame s p.forkFrame
    .ok ((s.setProc i (takeSpace prog table)).goto (execRest table p))

def freeTable (E : Env) (s : Sys T) (table : Nat) : Except Panic (Sys T) := do
  let P ← freeUserTable E.toLayout s.phys table
  .ok { s with phys := P }

/-- `fork`; the result goes to the parent's `a0`. -/
def fork (E : Env) (s : Sys T) (f : TrapFrame) : Except Panic (Sys T) :=
  match s.currentProc with
  | none => .ok (s.goto [.sysRet f (2 ^ 64 - 1)])
  | some (_, parent) => do
    let (child, P) ← cloneUserTable s.phys s.kernelRoot parent.pageTable
    let (b, s) ← Sys.alloc { s with phys := P } frameSize 3
    let (d, s) ← spawnWith E s .forkretBody (fun p =>
      { attachUserSpace child f.sepc f.sp p with
        heapBase := parent.heapBase
        heapBrk := parent.heapBrk
        fds := parent.fds
        forkFrame := some (b, f.setA0 0)
        image := parent.image })
    .ok (s.goto (publishing d ++ [.sysRet f d.pid]))

/-- Inside the `with_current` of `user_thread_body`. -/
def fetchUser (s : Sys T) (k : List (Instr T)) : Except Panic (Sys T) :=
  match s.currentProc with
  | none => .error .noCurrent
  | some (_, p) => .ok (s.goto (.popOff :: .userEntry p.userEntry p.userSp p.kstackTop :: k))

/-- The entry check of `user_thread_body`. -/
def userEntry (s : Sys T) (entry sp top : Nat) (k : List (Instr T)) : Except Panic (Sys T) :=
  if entry = 0 then .error .noEntry else .ok (s.goto (.enterUser entry sp top :: k))

/-- Inside the `with_current` of `forkret_body`. -/
def fetchFork (s : Sys T) (k : List (Instr T)) : Except Panic (Sys T) :=
  match s.currentProc with
  | none => .error .noCurrent
  | some (_, p) =>
    match p.forkFrame with
    | none => .error .noForkFrame
    | some (_, f) => .ok (s.goto (.popOff :: .intrOff :: .userret f p.kstackTop :: k))

/-- Drop to U-mode. Only `sp` is set: the other registers keep what the kernel
left in them. -/
def enterUser (h : Hart T) (junk : Regs) (entry sp top : Nat) : Hart T :=
  { h with
    code := [.umode]
    stack := .user
    sie := true
    sscratch := top
    regs := junk.set .sp sp
    pc := entry }

/-- `userret`: `sret` takes the interrupt enable from the frame. -/
def userret (h : Hart T) (f : TrapFrame) (top : Nat) : Hart T :=
  { h with
    code := [.umode]
    stack := .user
    sie := f.sstatus.spie
    sscratch := top
    regs := restore f userretLoads h.regs
    pc := f.sepc }

end Proc
end Osmium
