import Osmium.Memlayout

namespace Osmium

/-- The integer registers x1 to x31. -/
inductive Reg where
  | ra | sp | gp | tp | t0 | t1 | t2 | s0 | s1
  | a0 | a1 | a2 | a3 | a4 | a5 | a6 | a7
  | s2 | s3 | s4 | s5 | s6 | s7 | s8 | s9 | s10 | s11
  | t3 | t4 | t5 | t6
  deriving DecidableEq, Repr

abbrev Regs := Reg → Nat

def Regs.set (r : Regs) (x : Reg) (v : Nat) : Regs := fun y => if y = x then v else r y

/-- The bits of `sstatus` that traps and returns use. `spp` is set when the trap
came from S-mode, `spie` holds the interrupt enable at the trap. -/
structure Sstatus where
  spp : Bool
  spie : Bool
  deriving DecidableEq, Repr

/-- The saved registers of an interrupted context. -/
structure TrapFrame where
  regs : Regs
  sepc : Nat
  sstatus : Sstatus

namespace TrapFrame

def a0 (f : TrapFrame) : Nat := f.regs .a0
def a1 (f : TrapFrame) : Nat := f.regs .a1
def a2 (f : TrapFrame) : Nat := f.regs .a2
def a7 (f : TrapFrame) : Nat := f.regs .a7
def sp (f : TrapFrame) : Nat := f.regs .sp

def setA0 (f : TrapFrame) (v : Nat) : TrapFrame := { f with regs := f.regs.set .a0 v }

end TrapFrame

/-- The loads of `LOAD_GP`, in its order. -/
def loadGp : List Reg :=
  [.ra, .gp, .tp, .t0, .t1, .t2, .s0, .s1, .a0, .a1, .a2, .a3, .a4, .a5, .a6, .a7,
    .s2, .s3, .s4, .s5, .s6, .s7, .s8, .s9, .s10, .s11, .t3, .t4, .t5, .t6]

/-- The loads of `userret`, in its order: everything but the two registers that
address the frame, then those two. -/
def userretLoads : List Reg :=
  [.ra, .gp, .tp, .t0, .t1, .t2, .s0, .s1, .a1, .a2, .a3, .a4, .a5, .a6, .a7,
    .s2, .s3, .s4, .s5, .s6, .s7, .s8, .s9, .s10, .s11, .t3, .t4, .t5, .t6, .sp, .a0]

/-- Load the listed registers from a frame. -/
def restore (f : TrapFrame) (xs : List Reg) (r : Regs) : Regs :=
  xs.foldl (fun r x => r.set x (f.regs x)) r

theorem restore_apply (f : TrapFrame) (xs : List Reg) (r : Regs) (x : Reg) :
    restore f xs r x = if x ∈ xs then f.regs x else r x := by
  induction xs generalizing r with
  | nil => rfl
  | cons y ys ih =>
    unfold restore at ih ⊢
    rw [List.foldl_cons, ih]
    by_cases hm : x ∈ ys
    · simp [hm]
    · by_cases he : x = y <;> simp [hm, he, Regs.set]

/-- Both return paths restore every register. -/
theorem restore_all (f : TrapFrame) (r : Regs) :
    restore f (loadGp ++ [.sp]) r = f.regs ∧ restore f userretLoads r = f.regs := by
  constructor <;> funext x <;> rw [restore_apply] <;> cases x <;> rfl

end Osmium
