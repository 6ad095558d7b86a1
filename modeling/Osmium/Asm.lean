import Osmium.Lib.Rv64
import Osmium.Trap

namespace Osmium.Asm
open Lib Rv64

inductive Csr where
  | sscratch | sepc | sstatus
  deriving DecidableEq, Repr

/-- The labels of the four files, and what they call or address elsewhere. -/
inductive Label where
  | bssLoop | bssDone | hang
  | bssStart | bssEnd | bootStackTop | kmain
  | fromKernel | fromUser | saveCsrs | restore | kerneltrap
  deriving DecidableEq, Repr

abbrev Code := List (Insn Reg Csr Label)

/-- `entry.S` -/
def entry : Code :=
  [ .la .t0 .bssStart,
    .la .t1 .bssEnd,
    .label .bssLoop,
    .bgeu .t0 .t1 .bssDone,
    .sd none 0 .t0,
    .addi .t0 .t0 8,
    .j .bssLoop,
    .label .bssDone,
    .la .sp .bootStackTop,
    .call .kmain,
    .label .hang,
    .wfi,
    .j .hang ]

/-- `SAVE_GP` -/
def saveGp : Code :=
  [ .sd (some .ra) 0 .sp,
    .sd (some .gp) 16 .sp,
    .sd (some .tp) 24 .sp,
    .sd (some .t0) 32 .sp,
    .sd (some .t1) 40 .sp,
    .sd (some .t2) 48 .sp,
    .sd (some .s0) 56 .sp,
    .sd (some .s1) 64 .sp,
    .sd (some .a0) 72 .sp,
    .sd (some .a1) 80 .sp,
    .sd (some .a2) 88 .sp,
    .sd (some .a3) 96 .sp,
    .sd (some .a4) 104 .sp,
    .sd (some .a5) 112 .sp,
    .sd (some .a6) 120 .sp,
    .sd (some .a7) 128 .sp,
    .sd (some .s2) 136 .sp,
    .sd (some .s3) 144 .sp,
    .sd (some .s4) 152 .sp,
    .sd (some .s5) 160 .sp,
    .sd (some .s6) 168 .sp,
    .sd (some .s7) 176 .sp,
    .sd (some .s8) 184 .sp,
    .sd (some .s9) 192 .sp,
    .sd (some .s10) 200 .sp,
    .sd (some .s11) 208 .sp,
    .sd (some .t3) 216 .sp,
    .sd (some .t4) 224 .sp,
    .sd (some .t5) 232 .sp,
    .sd (some .t6) 240 .sp ]

/-- `LOAD_GP` -/
def loadGp : Code :=
  [ .ld .ra 0 .sp,
    .ld .gp 16 .sp,
    .ld .tp 24 .sp,
    .ld .t0 32 .sp,
    .ld .t1 40 .sp,
    .ld .t2 48 .sp,
    .ld .s0 56 .sp,
    .ld .s1 64 .sp,
    .ld .a0 72 .sp,
    .ld .a1 80 .sp,
    .ld .a2 88 .sp,
    .ld .a3 96 .sp,
    .ld .a4 104 .sp,
    .ld .a5 112 .sp,
    .ld .a6 120 .sp,
    .ld .a7 128 .sp,
    .ld .s2 136 .sp,
    .ld .s3 144 .sp,
    .ld .s4 152 .sp,
    .ld .s5 160 .sp,
    .ld .s6 168 .sp,
    .ld .s7 176 .sp,
    .ld .s8 184 .sp,
    .ld .s9 192 .sp,
    .ld .s10 200 .sp,
    .ld .s11 208 .sp,
    .ld .t3 216 .sp,
    .ld .t4 224 .sp,
    .ld .t5 232 .sp,
    .ld .t6 240 .sp ]

/-- `kernelvec.S` behind `.Lrestore`. -/
def restore : Code :=
  loadGp ++
  [ .ld .sp 8 .sp,
    .sret ]

/-- `kernelvec.S` behind the call of `kerneltrap`. -/
def trapRet : Code :=
  [ .ld .t0 248 .sp,
    .csrw .sepc (some .t0),
    .ld .t1 256 .sp,
    .csrw .sstatus (some .t1),
    .andi .t1 .t1 0x100,
    .bnez .t1 .restore,
    .addi .t0 .sp 272,
    .csrw .sscratch (some .t0),
    .label .restore ] ++ restore

/-- `kernelvec.S` behind `.Lsave_csrs`. -/
def saveCsrs : Code :=
  [ .csrr .t0 .sepc,
    .sd (some .t0) 248 .sp,
    .csrr .t0 .sstatus,
    .sd (some .t0) 256 .sp,
    .mv .a0 .sp,
    .call .kerneltrap ] ++ trapRet

/-- `kernelvec.S` behind `.Lfrom_user`. -/
def fromUser : Code :=
  .addi .sp .sp (-272) :: saveGp ++
  [ .csrr .t0 .sscratch,
    .sd (some .t0) 8 .sp,
    .csrw .sscratch none,
    .label .saveCsrs ] ++ saveCsrs

/-- `kernelvec.S` -/
def kernelvec : Code :=
  [ .csrrw .sp .sscratch .sp,
    .bnez .sp .fromUser,
    .label .fromKernel,
    .csrrw .sp .sscratch .sp,
    .addi .sp .sp (-272) ] ++ saveGp ++
  [ .addi .t0 .sp 272,
    .sd (some .t0) 8 .sp,
    .j .saveCsrs,
    .label .fromUser ] ++ fromUser

/-- `userret.S` -/
def userret : Code :=
  [ .csrw .sscratch (some .a1),
    .ld .t0 248 .a0,
    .csrw .sepc (some .t0),
    .ld .t0 256 .a0,
    .csrw .sstatus (some .t0),
    .ld .ra 0 .a0,
    .ld .gp 16 .a0,
    .ld .tp 24 .a0,
    .ld .t0 32 .a0,
    .ld .t1 40 .a0,
    .ld .t2 48 .a0,
    .ld .s0 56 .a0,
    .ld .s1 64 .a0,
    .ld .a1 80 .a0,
    .ld .a2 88 .a0,
    .ld .a3 96 .a0,
    .ld .a4 104 .a0,
    .ld .a5 112 .a0,
    .ld .a6 120 .a0,
    .ld .a7 128 .a0,
    .ld .s2 136 .a0,
    .ld .s3 144 .a0,
    .ld .s4 152 .a0,
    .ld .s5 160 .a0,
    .ld .s6 168 .a0,
    .ld .s7 176 .a0,
    .ld .s8 184 .a0,
    .ld .s9 192 .a0,
    .ld .s10 200 .a0,
    .ld .s11 208 .a0,
    .ld .t3 216 .a0,
    .ld .t4 224 .a0,
    .ld .t5 232 .a0,
    .ld .t6 240 .a0,
    .ld .sp 8 .a0,
    .ld .a0 72 .a0,
    .sret ]

/-- `switch.S` -/
def swtch : Code :=
  [ .sd (some .ra) 0 .a0,
    .sd (some .sp) 8 .a0,
    .sd (some .s0) 16 .a0,
    .sd (some .s1) 24 .a0,
    .sd (some .s2) 32 .a0,
    .sd (some .s3) 40 .a0,
    .sd (some .s4) 48 .a0,
    .sd (some .s5) 56 .a0,
    .sd (some .s6) 64 .a0,
    .sd (some .s7) 72 .a0,
    .sd (some .s8) 80 .a0,
    .sd (some .s9) 88 .a0,
    .sd (some .s10) 96 .a0,
    .sd (some .s11) 104 .a0,
    .ld .ra 0 .a1,
    .ld .sp 8 .a1,
    .ld .s0 16 .a1,
    .ld .s1 24 .a1,
    .ld .s2 32 .a1,
    .ld .s3 40 .a1,
    .ld .s4 48 .a1,
    .ld .s5 56 .a1,
    .ld .s6 64 .a1,
    .ld .s7 72 .a1,
    .ld .s8 80 .a1,
    .ld .s9 88 .a1,
    .ld .s10 96 .a1,
    .ld .s11 104 .a1,
    .ret ]

/-- The fields of a saved `TrapFrame` before `sepc`, in the order of its
declaration. -/
def frameRegs : List Reg :=
  [.ra, .sp, .gp, .tp, .t0, .t1, .t2, .s0, .s1, .a0, .a1, .a2, .a3, .a4, .a5, .a6, .a7,
    .s2, .s3, .s4, .s5, .s6, .s7, .s8, .s9, .s10, .s11, .t3, .t4, .t5, .t6]

/-- Where a `#[repr(C)]` frame of doublewords has a register. -/
def frameSlot (x : Reg) : Nat := 8 * frameRegs.idxOf x

abbrev sepcSlot : Nat := 248
abbrev sstatusSlot : Nat := 256

/-- The bits of `sstatus` that a return looks at. -/
def statusOf (w : Word) : Sstatus := { spp := w.getLsbD 8, spie := w.getLsbD 5 }

/-- The frame that lies at an address. -/
def frameAt (m : Mem) (a : Nat) : TrapFrame :=
  { regs := fun x => load64 m (a + frameSlot x)
    sepc := load64 m (a + sepcSlot)
    sstatus := statusOf (BitVec.ofNat 64 (load64 m (a + sstatusSlot))) }

/-- The fields of a `Context`, in the order of its declaration. -/
def contextRegs : List Reg :=
  [.ra, .sp, .s0, .s1, .s2, .s3, .s4, .s5, .s6, .s7, .s8, .s9, .s10, .s11]

def contextSlot (x : Reg) : Nat := 8 * contextRegs.idxOf x

abbrev contextSize : Nat := 112

end Osmium.Asm
