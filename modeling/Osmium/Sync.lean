import Osmium.Sched

namespace Osmium
open Lib

variable {T : Type}

namespace Sync

/-- The sleep channel of a semaphore is its own address. -/
def chanOf (E : Env) (a : SemId) : Nat := E.semAddr a

/-- `wait` from the top of its loop. -/
def waitCode (a : SemId) : List (Instr T) := [.pushOff, .acquire (.count a), .semCheck a]

/-- The loop body under the lock: pass, or unlock and sleep before trying again.
Interrupts are off from the check to the sleep, so that much is one piece. -/
def semCheck (E : Env) (s : Sys T) (a : SemId) (k : List (Instr T)) : Except Panic (Sys T) :=
  let c := s.sem a
  if 0 < c.count then
    .ok ({ s with
      sem := fun b => if b = a then { c with count := c.count - 1, passed := c.passed + 1 }
        else s.sem b }.goto (.release (.count a) :: .popOff :: k))
  else do
    let s ← Spinlock.release s (.count a)
    let s ← Proc.setState s (.sleeping (chanOf E a))
    .ok (s.goto (.sched :: .popOff :: .wait a :: k))

/-- `signal`: the increment and the wakeup are two critical sections. -/
def signal (E : Env) (a : SemId) : List (Instr T) :=
  [.pushOff, .acquire (.count a), .increment a, .release (.count a), .popOff] ++
    Proc.wakeup (chanOf E a)

def increment (s : Sys T) (a : SemId) : Except Panic (Sys T) :=
  let c := s.sem a
  if c.count + 1 < 2 ^ 64 then
    .ok { s with
      sem := fun b => if b = a then { c with count := c.count + 1, raised := c.raised + 1 }
        else s.sem b }
  else .error .overflow

def send (E : Env) (ch : Nat) (item : T) : List (Instr T) :=
  [.wait (.empty ch), .acquire (.buf ch), .pushBack ch item, .release (.buf ch)] ++
    signal E (.full ch)

def recv (E : Env) (ch : Nat) : List (Instr T) :=
  [.wait (.full ch), .acquire (.buf ch), .popFront ch, .release (.buf ch)] ++
    signal E (.empty ch)

def pushBack (s : Sys T) (ch : Nat) (item : T) : Sys T :=
  let c := s.chan ch
  { s with
    chan := fun d => if d = ch then { c with buf := c.buf ++ [item], pushed := c.pushed ++ [item] }
      else s.chan d }

/-- An empty buffer fails `expect("channel invariant: ..")`. -/
def popFront (s : Sys T) (ch : Nat) : Except Panic (Sys T) :=
  let c := s.chan ch
  match c.buf with
  | [] => .error .emptyChannel
  | item :: rest =>
    .ok { s with
      chan := fun d => if d = ch then { c with buf := rest, popped := c.popped ++ [item] }
        else s.chan d }

end Sync

namespace Console

/-- `on_input` for one received byte. -/
def onInput (E : Env) (byte : UInt8) : List (Instr T) :=
  [.acquire .input, .ringPush byte, .release .input] ++ Proc.wakeup E.inputAddr

/-- Store a byte, CR normalised to NL; a full ring drops it. -/
def ringPush (s : Sys T) (byte : UInt8) : Sys T :=
  let byte := if byte = 13 then 10 else byte
  let q := s.input
  if q.w - q.r < inputCap then
    { s with
      input := { q with
        buf := fun i => if i = q.w % inputCap then byte else q.buf i
        w := q.w + 1 } }
  else s

/-- Pop one byte, or none when the ring is empty. -/
def getchar (s : Sys T) : Option UInt8 × Sys T :=
  let q := s.input
  if q.r = q.w then (none, s)
  else (some (q.buf (q.r % inputCap)), { s with input := { q with r := q.r + 1 } })

/-- `getchar_blocking` from the top of its loop. -/
def getcharCode (r : Reader) : List (Instr T) := [.pushOff, .acquire .input, .getcharCheck r]

def getcharCheck (s : Sys T) (r : Reader) (k : List (Instr T)) : Sys T :=
  match getchar s with
  | (some byte, s) => s.goto (.release .input :: .popOff :: .gotChar r byte :: k)
  | (none, s) =>
    s.goto (.release .input :: Proc.sleep .input ++ [.popOff, .getcharLoop r] ++ k)

end Console

namespace Timer

def sleepTicks (s : Sys T) (n : Nat) (k : List (Instr T)) : Except Panic (Sys T) :=
  if s.ticks + n < 2 ^ 64 then .ok (s.goto (.tickWhile (s.ticks + n) :: k))
  else .error .overflow

def tickWhile (s : Sys T) (target : Nat) (k : List (Instr T)) : Sys T :=
  if s.ticks < target then s.goto ([.pushOff, .tickIf target, .popOff, .tickWhile target] ++ k)
  else s.goto k

def tickIf (s : Sys T) (target : Nat) (k : List (Instr T)) : Sys T :=
  if s.ticks < target then s.goto (Proc.sleep .tick ++ k) else s.goto k

/-- The timer interrupt: count, wake the sleepers, then perhaps deschedule. -/
def handler : List (Instr T) := .onTick :: Proc.wakeup tickChan ++ [.pushOff, .tickCheck]

end Timer
end Osmium
