import Osmium.Proc

namespace Osmium
open Lib Vm

variable {T : Type}

/-- The bytes of a string literal. -/
def ascii (text : String) : List UInt8 := text.toUTF8.data.toList

namespace Fs

/-- The files that `init` creates. -/
def init : List (List UInt8 × List UInt8) :=
  [(ascii "motd", ascii "welcome to osmium -- a RISC-V kernel in Rust\n"),
    (ascii "readme", ascii ("osmium ramfs\n------------\na flat, read-only, in-memory filesystem.\n" ++
      "try: ls, cat motd, cat readme\n")),
    (ascii "cpuinfo", ascii "isa: rv64gc\nharts: 1\nmachine: qemu-virt\n")]

def lookup (E : Env) (name : List UInt8) : Option Nat := E.files.findIdx? (fun f => f.1 = name)

/-- The bytes `read_at` copies into a buffer of the given length. -/
def readAt (E : Env) (idx offset cap : Nat) : List UInt8 :=
  match E.files[idx]? with
  | none => []
  | some (_, data) => (data.drop offset).take cap

end Fs

/-- The programs `exec` and the shell find by name. -/
def User.lookup (name : List UInt8) : Option Program :=
  if name = ascii "greeter" then some .greeter
  else if name = ascii "uname" then some .uname
  else if name = ascii "heapgrow" then some .heapgrow
  else if name = ascii "forker" then some .forker
  else if name = ascii "catfile" then some .catfile
  else none

namespace Proc

/-- Install a file in the calling process's first free descriptor. -/
def fdInstall (s : Sys T) (fileIdx : Nat) : Option Nat × Sys T :=
  match s.currentProc with
  | none => (none, s)
  | some (i, p) =>
    match p.fds.findIdx? Option.isNone with
    | none => (none, s)
    | some fd => (some fd, s.setProc i (fun p => { p with fds := p.fds.set fd (some ⟨fileIdx, 0⟩) }))

def fdLookup (s : Sys T) (fd : Nat) : Option (Nat × Nat) :=
  s.currentProc.bind (fun (_, p) => (p.fds[fd]?).join.map (fun e => (e.fileIdx, e.offset)))

def fdAdvance (s : Sys T) (fd delta : Nat) : Except Panic (Sys T) :=
  match s.currentProc with
  | none => .ok s
  | some (i, p) =>
    match (p.fds[fd]?).join with
    | none => .ok s
    | some e => do
      let offset ← Heap.checked (e.offset + delta)
      .ok (s.setProc i (fun p => { p with fds := p.fds.set fd (some { e with offset }) }))

def fdClose (s : Sys T) (fd : Nat) : Bool × Sys T :=
  match s.currentProc with
  | none => (false, s)
  | some (i, p) =>
    match (p.fds[fd]?).join with
    | none => (false, s)
    | some _ => (true, s.setProc i (fun p => { p with fds := p.fds.set fd none }))

/-- The space a user pointer refers to. -/
def currentRoot (s : Sys T) : Nat :=
  match s.currentProc with
  | none => s.kernelRoot
  | some (_, p) => p.pageTable

def currentPid (s : Sys T) : Nat :=
  match s.currentProc with
  | none => 0
  | some (_, p) => p.pid

/-- Grow the heap: the old break, or all ones past the limit. -/
def sbrk (s : Sys T) (delta : Nat) : Nat × Sys T :=
  match s.currentProc with
  | none => (2 ^ 64 - 1, s)
  | some (i, p) =>
    let new := p.heapBrk + delta
    if ¬new < 2 ^ 64 then (2 ^ 64 - 1, s)
    else if userHeapMax < new then (2 ^ 64 - 1, s)
    else (p.heapBrk, s.setProc i (fun p => { p with heapBrk := new }))

/-- Map a heap page on demand. `false` leaves the process to die. -/
def servicePageFault (s : Sys T) (addr : Nat) : Except Panic (Bool × Sys T) :=
  match s.currentProc with
  | none => .ok (false, s)
  | some (_, p) =>
    if addr < p.heapBase ∨ p.heapBrk ≤ addr then .ok (false, s)
    else do
      let pageVa := addr / pageSize * pageSize
      match ← translate s.phys p.pageTable pageVa with
      | some _ => .ok (false, s)
      | none =>
        match ← Kalloc.alloc s.phys with
        | (none, P) => .ok (false, { s with phys := P })
        | (some frame, P) => do
          let P ← mapPages P p.pageTable pageVa frame pageSize (pteR ||| pteW ||| pteU)
          .ok (true, { s with phys := P })

end Proc

namespace Syscall

abbrev pathMax : Nat := 64
abbrev writeMax : Nat := 1024
abbrev err : Nat := 2 ^ 64 - 1
abbrev tickHz : Nat := 100
abbrev timebaseFreq : Nat := 10000000
abbrev tickInterval : Nat := timebaseFreq / tickHz

def uname : List UInt8 := ascii "osmium 0.1.0 riscv64\n"

inductive Call where
  | write | exit | yieldNow | getpid | sleepMs | read | uname | openFile | fread | close | sbrk
  | fork | wait | exec
  deriving DecidableEq, Repr

def call : Nat → Option Call
  | 1 => some .write
  | 2 => some .exit
  | 3 => some .yieldNow
  | 4 => some .getpid
  | 5 => some .sleepMs
  | 6 => some .read
  | 7 => some .uname
  | 8 => some .openFile
  | 9 => some .fread
  | 10 => some .close
  | 11 => some .sbrk
  | 12 => some .fork
  | 13 => some .wait
  | 14 => some .exec
  | _ => none

/-- A `Vec<u8>`: its bytes, and its buffer unless it never needed one. -/
structure Buf where
  bytes : List UInt8
  ptr : Option Nat

/-- `Vec::with_capacity`. -/
def withCapacity (s : Sys T) (cap : Nat) : Except Panic (Option Nat × Sys T) :=
  if cap = 0 then .ok (none, s)
  else do
    let (p, s) ← s.alloc cap 0
    .ok (some p, s)

def dropBuf (s : Sys T) : Option Nat → Except Panic (Sys T)
  | none => .ok s
  | some p => s.dealloc p

/-- What a copy did: its result, the physical addresses it read or wrote on the
user's side, and the machine after it. -/
structure Transfer (T α : Type) where
  result : Option α
  touched : List Nat
  sys : Sys T

/-- The end of a range that neither wraps nor leaves the lower half. -/
def rangeEnd (ptr len : Nat) : Option Nat :=
  if ptr + len < 2 ^ 64 then
    if vaMax < ptr + len then none else some (ptr + len)
  else none

/-- Is every page from `page` up to `stop` mapped with all the given bits? -/
def checkPages (P : Phys) (root : Nat) (bits : List Nat) (stop page : Nat) : Except Panic Bool :=
  if page < stop then do
    match ← translate P root page with
    | none => .ok false
    | some (_, pte) =>
      if bits.any (fun b => pte &&& b = 0) then .ok false
      else checkPages P root bits stop (page + pageSize)
  else .ok true
termination_by stop - page
decreasing_by
  unfold pageSize
  omega

/-- The read loop: byte by byte through `satp` with `SUM` set. A fault in
S-mode stops the kernel. -/
def readBytes (m : Mem) (root : Nat) : Nat → Nat → Except Panic (List UInt8 × List Nat)
  | _, 0 => .ok ([], [])
  | va, n + 1 =>
    match Sv39.access m root va .load .supervisor true with
    | none => .error .kernelFault
    | some pa => do
      let (bytes, touched) ← readBytes m root (va + 1) n
      .ok (m pa :: bytes, pa :: touched)

/-- The write loop. -/
def writeBytes (root : Nat) : Mem → Nat → List UInt8 → Except Panic (Mem × List Nat)
  | m, _, [] => .ok (m, [])
  | m, va, b :: bs =>
    match Sv39.access m root va .store .supervisor true with
    | none => .error .kernelFault
    | some pa => do
      let (m, touched) ← writeBytes root (poke m pa b) (va + 1) bs
      .ok (m, pa :: touched)

def copyFromUser (s : Sys T) (ptr len : Nat) : Except Panic (Transfer T Buf) :=
  match rangeEnd ptr len with
  | none => .ok ⟨none, [], s⟩
  | some stop => do
    if ← checkPages s.phys (Proc.currentRoot s) [pteU] stop (ptr / pageSize * pageSize) then
      let (buf, s) ← withCapacity s len
      let (bytes, touched) ← readBytes s.phys.mem s.hart.satp ptr len
      .ok ⟨some ⟨bytes, buf⟩, touched, s⟩
    else .ok ⟨none, [], s⟩

def copyToUser (s : Sys T) (ptr : Nat) (src : List UInt8) : Except Panic (Transfer T Nat) :=
  match rangeEnd ptr src.length with
  | none => .ok ⟨none, [], s⟩
  | some stop => do
    if ← checkPages s.phys (Proc.currentRoot s) [pteU, pteW] stop (ptr / pageSize * pageSize) then
      let (m, touched) ← writeBytes s.hart.satp s.phys.mem ptr src
      .ok ⟨some src.length, touched, { s with phys := { s.phys with mem := m } }⟩
    else .ok ⟨none, [], s⟩

/-- `SYS_WRITE`. Text goes to the console; other bytes are an error. -/
def sysWrite (s : Sys T) (ptr len : Nat) : Except Panic (Nat × Sys T) :=
  if writeMax < len then .ok (err, s)
  else do
    let t ← copyFromUser s ptr len
    match t.result with
    | none => .ok (err, t.sys)
    | some buf =>
      let s ← dropBuf t.sys buf.ptr
      .ok (if ByteArray.validateUTF8 ⟨buf.bytes.toArray⟩ then len else err, s)

/-- The tail of the calls that end in a copy to the user. -/
def copyOut (s : Sys T) (ptr : Nat) (src : List UInt8) : Except Panic (Nat × Sys T) := do
  let t ← copyToUser s ptr src
  .ok (t.result.getD err, t.sys)

def sysUname (s : Sys T) (ptr len : Nat) : Except Panic (Nat × Sys T) :=
  copyOut s ptr (uname.take len)

/-- `SYS_READ` up to its first byte. -/
def sysRead (s : Sys T) (f : TrapFrame) (ptr len : Nat) : Except Panic (Sys T) :=
  if len = 0 then .ok (s.goto [.sysRet f 0])
  else do
    let cap := min len writeMax
    let (buf, s) ← s.alloc cap 0
    .ok (s.goto [.getcharLoop (.user f ptr cap buf)])

/-- Take what is already buffered, up to `n` bytes. -/
def drain (s : Sys T) : Nat → List UInt8 × Sys T
  | 0 => ([], s)
  | n + 1 =>
    match Console.getchar s with
    | (none, s) => ([], s)
    | (some byte, s) =>
      let (bytes, s) := drain s n
      (byte :: bytes, s)

/-- `SYS_READ` behind its first byte. -/
def readRest (s : Sys T) (f : TrapFrame) (ptr cap buf : Nat) (byte : UInt8) :
    Except Panic (Sys T) := do
  let (bytes, s) := drain s (cap - 1)
  let (n, s) ← copyOut s ptr (byte :: bytes)
  let s ← s.dealloc buf
  .ok (s.goto [.sysRet f n])

/-- A name from user memory, looked up; `None` on any failure. The source turns
the bytes into a `str` first; bytes equal to a name are one. -/
def withName {α : Type} (s : Sys T) (ptr len : Nat) (lookup : List UInt8 → Option α) :
    Except Panic (Option (α × Option Nat) × Sys T) :=
  if len = 0 ∨ pathMax < len then .ok (none, s)
  else do
    let t ← copyFromUser s ptr len
    match t.result with
    | none => .ok (none, t.sys)
    | some buf =>
      match lookup buf.bytes with
      | none =>
        let s ← dropBuf t.sys buf.ptr
        .ok (none, s)
      | some x => .ok (some (x, buf.ptr), t.sys)

/-- `exec` does not return, so the name's buffer is never dropped. -/
def sysExec (s : Sys T) (f : TrapFrame) (ptr len : Nat) : Except Panic (Sys T) := do
  match ← withName s ptr len User.lookup with
  | (none, s) => .ok (s.goto [.sysRet f err])
  | (some (prog, _), s) => .ok (s.goto [.loadImage prog .exec])

def sysOpen (E : Env) (s : Sys T) (ptr len : Nat) : Except Panic (Nat × Sys T) := do
  match ← withName s ptr len (Fs.lookup E) with
  | (none, s) => .ok (err, s)
  | (some (fileIdx, buf), s) =>
    let (fd, s) := Proc.fdInstall s fileIdx
    let s ← dropBuf s buf
    .ok (fd.getD err, s)

def sysFread (E : Env) (s : Sys T) (fd ptr len : Nat) : Except Panic (Nat × Sys T) :=
  match Proc.fdLookup s fd with
  | none => .ok (err, s)
  | some (fileIdx, offset) =>
    let cap := min len writeMax
    if cap = 0 then .ok (0, s)
    else do
      let (buf, s) ← s.alloc cap 0
      let t ← copyToUser s ptr (Fs.readAt E fileIdx offset cap)
      match t.result with
      | none =>
        let s ← t.sys.dealloc buf
        .ok (err, s)
      | some written =>
        let s ← Proc.fdAdvance t.sys fd written
        let s ← s.dealloc buf
        .ok (written, s)

def sleepMs (ms : Nat) : Nat := max ((min (ms * tickHz) (2 ^ 64 - 1) + 999) / 1000) 1

/-- Handle an `ecall`: past the instruction, and the result goes to `a0`. -/
def dispatch (E : Env) (s : Sys T) (f : TrapFrame) : Except Panic (Sys T) := do
  let sepc ← Heap.checked (f.sepc + 4)
  let f := { f with sepc }
  let ret : Nat × Sys T → Sys T := fun (result, s) => s.goto [.sysRet f result]
  match call f.a7 with
  | some .write => ret <$> sysWrite s f.a0 f.a1
  | some .exit => .ok (s.goto [.exit])
  | some .yieldNow => .ok (s.goto (Proc.yieldNow ++ [.sysRet f 0]))
  | some .getpid => .ok (ret (Proc.currentPid s, s))
  | some .read => sysRead s f f.a0 f.a1
  | some .uname => ret <$> sysUname s f.a0 f.a1
  | some .openFile => ret <$> sysOpen E s f.a0 f.a1
  | some .fread => ret <$> sysFread E s f.a0 f.a1 f.a2
  | some .sbrk => .ok (ret (Proc.sbrk s f.a0))
  | some .fork => .ok (s.goto [.fork f])
  | some .wait => .ok (s.goto [.join f.a0, .sysRet f 0])
  | some .exec => sysExec s f f.a0 f.a1
  | some .close =>
    let (closed, s) := Proc.fdClose s f.a0
    .ok (ret (if closed then 0 else err, s))
  | some .sleepMs => .ok (s.goto [.sleepTicks (sleepMs f.a0), .sysRet f 0])
  | none => .ok (ret (err, s))

end Syscall
end Osmium
