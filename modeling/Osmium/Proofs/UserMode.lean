import Osmium.Proofs.Isolation

namespace Osmium
open Lib Vm Control

variable {T : Type} {E : Env} {pool : PagePool E.allocStart} {s s' : Sys T}

/-- The hart runs the program of a process. -/
structure Inside (s : Sys T) (i : Nat) (p : Process T) (t : Nat) : Prop where
  code : s.hart.code = [.umode]
  stack : s.hart.stack = .user
  caller : s.currentProc = some (i, p)
  space : p.userTable = some t

/-- The program computes: any registers, any place to go on. -/
def Sys.computed (s : Sys T) (regs : Regs) (pc : Nat) : Sys T :=
  { s with hart := { s.hart with regs := regs, pc := pc } }

/-- The program traps. -/
def Sys.trapped (s : Sys T) (cause stval : Nat) : Sys T :=
  Trap.fromUser s [.kerneltrap (Trap.frameOf s.hart) cause stval]

/-- The registers of a call. -/
def callRegs (n a0 a1 : Nat) : Regs := fun x =>
  match x with
  | .a7 => n
  | .a0 => a0
  | .a1 => a1
  | _ => 0

/-- The program makes a call. -/
def Sys.called (s : Sys T) (n a0 a1 : Nat) : Sys T :=
  (s.computed (callRegs n a0 a1) userText).trapped 8 0

/-- The frame of that call, past the instruction. -/
def Sys.callFrame (s : Sys T) (n a0 a1 : Nat) : TrapFrame :=
  { Trap.frameOf (s.computed (callRegs n a0 a1) userText).hart with sepc := userText + 4 }

namespace Inside

theorem acts (h : Inside s i p t) : Acts s i p t where
  caller := h.caller
  space := h.space
  stack := by
    rw [h.stack]
    exact nofun
  settled r hr := by
    rw [h.code] at hr
    cases List.mem_singleton.mp hr

theorem trapped_acts (h : Inside s i p t) (cause stval : Nat) : Acts (s.trapped cause stval) i p t where
  caller := h.caller
  space := h.space
  stack := nofun
  settled r hr := by cases List.mem_singleton.mp hr

theorem computed (h : Inside s i p t) (regs : Regs) (pc : Nat) : Inside (s.computed regs pc) i p t :=
  ⟨h.code, h.stack, h.caller, h.space⟩

theorem compute (h : Inside s i p t) (hregs : ∀ x, regs x < 2 ^ 64) (hpc : pc < 2 ^ 64) :
    Step E s (s.computed regs pc) := .userAlu regs pc ⟨hregs, hpc⟩ h.code

/-- A page fault at any address. -/
theorem fault (h : Inside s i p t) (hword : addr < 2 ^ 64) : Step E s (s.trapped 15 addr) :=
  .userTrap 15 addr hword h.code (fun hc => by omega)

/-- The first instruction of the program can be fetched. -/
theorem fetches (h : Inside s i p t) (hr : Reachable E reserved s) (hi : p.image = some prog) :
    (Sv39.access s.phys.mem s.hart.satp userText .fetch .user false).isSome := by
  obtain ⟨res, lost, _, hs⟩ := reachable_sane hr
  have hpos := Nat.mul_pos (Books.npages_fits E prog).1 (show 0 < pageSize by decide)
  obtain ⟨pa, hpa⟩ := hs.program_access (Sys.currentProc_eq h.caller).2 h.space hi
    (.inl ⟨Nat.le_refl userText, Nat.lt_add_of_pos_right hpos, rfl⟩)
  rw [hs.satp h.acts, hpa, Option.isSome_some]

/-- The program can call from there. -/
theorem ecall (h : Inside s i p t) (hr : Reachable E reserved s) (hi : p.image = some prog)
    (hpc : s.hart.pc = userText) : Step E s (s.trapped 8 0) := by
  refine .userTrap 8 0 (by decide) h.code (fun _ => ?_)
  rw [hpc]
  exact h.fetches hr hi

/-- Back from a trap that changed nothing but memory, the program goes on where
it was. -/
theorem resumed (h : Inside s i p t) (P : Phys) (cause stval : Nat) :
    Trap.ret (Sys.goto { s.trapped cause stval with phys := P } [.trapRet (Trap.frameOf s.hart)])
      (Trap.frameOf s.hart) = { s with phys := P } := by
  obtain ⟨hcode, hstack, _, _⟩ := h
  cases s with
  | mk phys heap kroot procs ptr cap cur next sctx npid ticks input sem chan locked boxes hart =>
    cases hart with
    | mk code stack sie noff intena satp sscratch regs pc =>
      obtain rfl : code = [.umode] := hcode
      obtain rfl : stack = .user := hstack
      unfold Trap.ret
      dsimp only [Sys.goto, Sys.trapped, Trap.fromUser, Trap.frameOf]
      rw [(restore_all _ _).1]

/-- The call, up to the kernel's handler. -/
theorem calls (h : Inside s i p t) (hr : Reachable E reserved s) (hi : p.image = some prog)
    (n a0 a1 : Nat) (hn : n < 2 ^ 64) (h0 : a0 < 2 ^ 64) (h1 : a1 < 2 ^ 64) :
    Relation.ReflTransGen (Step E) s (s.called n a0 a1) := by
  have hregs : ∀ x, callRegs n a0 a1 x < 2 ^ 64 := by
    intro x
    cases x <;> first | exact hn | exact h0 | exact h1 | exact Nat.two_pow_pos 64
  have hmove : Step E s (s.computed (callRegs n a0 a1) userText) := h.compute hregs (by decide)
  exact .tail (.single hmove) ((h.computed _ _).ecall (hr.step hmove) hi rfl)

theorem called_acts (h : Inside s i p t) (n a0 a1 : Nat) : Acts (s.called n a0 a1) i p t :=
  (h.computed _ _).trapped_acts 8 0

/-- A call that comes back. -/
theorem returns (h : Inside s i p t) (hr : Reachable E reserved s) (hi : p.image = some prog)
    (n a0 a1 : Nat) (hn : n < 2 ^ 64) (h0 : a0 < 2 ^ 64) (h1 : a1 < 2 ^ 64)
    (run : exec E (fun _ => 0) (s.called n a0 a1)
      (.kerneltrap (Trap.frameOf (s.computed (callRegs n a0 a1) userText).hart) 8 0) [] =
        .ok (Sys.goto s₁ [.sysRet f res])) :
    Relation.ReflTransGen (Step E) s (Trap.ret (Sys.goto s₁ [.sysRet f res]) (f.setA0 res)) := by
  have hhandle : Step E (s.called n a0 a1) (Sys.goto s₁ [.sysRet f res]) := .exec (fun _ => 0) rfl run
  exact .tail (.tail (h.calls hr hi n a0 a1 hn h0 h1) hhandle) (.exec (fun _ => 0) rfl rfl)

theorem ret (hc : s.currentProc = some (i, p)) (ht : p.userTable = some t) (f : TrapFrame) :
    Inside (Trap.ret (s.goto c) f) i p t := ⟨rfl, rfl, hc, ht⟩

/-- `SYS_SBRK` below the limit. -/
theorem sbrk (h : Inside s i p t) (hr : Reachable E reserved s) (hi : p.image = some prog)
    (hmax : p.heapBrk + delta ≤ userHeapMax) :
    ∃ s', Relation.ReflTransGen (Step E) s s' ∧ s'.phys = s.phys ∧
      Inside s' i { p with heapBrk := p.heapBrk + delta } t := by
  have hmax : p.heapBrk + delta ≤ 0x60000000 := hmax
  obtain ⟨hcur, hp⟩ := Sys.currentProc_eq h.caller
  have hp : (s.called 11 delta 0).proc i = some p := hp
  have hsbrk : Proc.sbrk (s.called 11 delta 0) delta = (p.heapBrk, (s.called 11 delta 0).setProc i
      (fun q => { q with heapBrk := p.heapBrk + delta })) := by
    unfold Proc.sbrk
    rw [(h.called_acts 11 delta 0).caller]
    dsimp only
    rw [if_neg (by omega), if_neg (by show ¬0x60000000 < _; omega)]
  have hret : exec E (fun _ => 0) (s.called 11 delta 0)
      (.kerneltrap (Trap.frameOf (s.computed (callRegs 11 delta 0) userText).hart) 8 0) [] =
        .ok (Sys.goto (Proc.sbrk (s.called 11 delta 0) delta).2
          [.sysRet (s.callFrame 11 delta 0) (Proc.sbrk (s.called 11 delta 0) delta).1]) := rfl
  rw [hsbrk] at hret
  have hcaller : (Sys.setProc (s.called 11 delta 0) i
      (fun q => { q with heapBrk := p.heapBrk + delta })).currentProc =
        some (i, { p with heapBrk := p.heapBrk + delta }) := by
    refine Sys.currentProc_some hcur ?_
    rw [Sys.proc_setProc, if_pos rfl, hp]
    rfl
  exact ⟨_, h.returns hr hi 11 delta 0 (by decide) (by omega) (by decide) hret, rfl,
    .ret hcaller h.space _⟩

end Inside

theorem Userland.inside (h : Userland s d e) (ht : d.userTable = some t) :
    Inside s 0 (Proc.seated d) t where
  code := by
    rw [h.hart]
    rfl
  stack := by
    rw [h.hart]
    rfl
  caller := Sys.currentProc_some h.current h.proc_zero
  space := ht

/-- In a run of the kernel, the drop from `s` to the first instruction of a
program: by `user_thread_body` or by `exec`, with `left` in the registers. -/
structure Starts (E : Env) (prog : Program) (pc sp : Nat) (left : Regs) (s s' : Sys T) : Prop where
  reach : ∃ reserved, Reachable E reserved s
  image : ∃ i p, s.currentProc = some (i, p) ∧ p.image = some prog
  enter : ∃ top k, s.hart.code = .enterUser pc sp top :: k ∧
    exec E left s (.enterUser pc sp top) k = .ok s'

namespace Starts

theorem regs (h : Starts E prog pc sp left s s') : s'.hart.regs = left.set .sp sp := by
  obtain ⟨top, k, _, run⟩ := h.enter
  rw [← Except.ok.inj run]
  rfl

end Starts

end Osmium
