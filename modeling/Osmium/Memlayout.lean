import Osmium.Lib.Bytes

namespace Osmium

abbrev pageSize : Nat := 4096

abbrev plic : Nat := 0x0c000000
abbrev plicSize : Nat := 0x400000
abbrev uart0 : Nat := 0x10000000

abbrev dramBase : Nat := 0x80000000
/-- Matches `-m 128M`. -/
abbrev physTop : Nat := dramBase + 128 * 1024 * 1024

abbrev heapSize : Nat := 8 * 1024 * 1024

/-- The section boundaries exported by linker.ld. The script pins the image to
the payload address, pads every mapped section to a page boundary, and never
leaves text, rodata or data empty: text holds the entry code and data the boot
stack. -/
structure Layout where
  textStart : Nat
  textEnd : Nat
  userStart : Nat
  userEnd : Nat
  rodataStart : Nat
  rodataEnd : Nat
  dataStart : Nat
  kernelEnd : Nat
  base : textStart = 0x80200000
  text : textStart < textEnd
  user : textEnd ≤ userStart ∧ userStart ≤ userEnd
  rodata : userEnd ≤ rodataStart ∧ rodataStart < rodataEnd
  data : rodataEnd ≤ dataStart ∧ dataStart < kernelEnd
  top : kernelEnd + heapSize ≤ physTop
  textEnd_page : textEnd % pageSize = 0
  userStart_page : userStart % pageSize = 0
  userEnd_page : userEnd % pageSize = 0
  rodataStart_page : rodataStart % pageSize = 0
  rodataEnd_page : rodataEnd % pageSize = 0
  dataStart_page : dataStart % pageSize = 0
  kernelEnd_page : kernelEnd % pageSize = 0

namespace Layout

def kernelStart (L : Layout) : Nat := L.textStart

/-- First byte of the kernel heap. -/
def heapStart (L : Layout) : Nat := L.kernelEnd

/-- First page the physical page allocator owns. -/
def allocStart (L : Layout) : Nat := L.heapStart + heapSize

theorem allocStart_eq (L : Layout) : L.allocStart = L.kernelEnd + 8388608 := rfl

theorem allocStart_page (L : Layout) : L.allocStart % 4096 = 0 := by
  have h := L.kernelEnd_page
  rw [allocStart_eq]
  unfold pageSize at h
  omega

/-- The allocator's range lies in the third gigabyte, above the kernel image. -/
theorem allocStart_range (L : Layout) : 0x80a00000 < L.allocStart ∧ L.allocStart ≤ 0x88000000 := by
  have hb := L.base
  have ht := L.text
  have hu := L.user
  have hr := L.rodata
  have hd := L.data
  have hp := L.top
  rw [allocStart_eq]
  unfold physTop dramBase heapSize at hp
  omega

theorem allocStart_pos (L : Layout) : 0 < L.allocStart := by
  have h := L.allocStart_range
  omega

end Layout

/-- An image of one megabyte. -/
def smallImage : Layout where
  textStart := 0x80200000
  textEnd := 0x80220000
  userStart := 0x80220000
  userEnd := 0x80224000
  rodataStart := 0x80224000
  rodataEnd := 0x80230000
  dataStart := 0x80230000
  kernelEnd := 0x80300000
  base := rfl
  text := by decide
  user := by decide
  rodata := by decide
  data := by decide
  top := by decide
  textEnd_page := rfl
  userStart_page := rfl
  userEnd_page := rfl
  rodataStart_page := rfl
  rodataEnd_page := rfl
  dataStart_page := rfl
  kernelEnd_page := rfl

/-- The ways the kernel stops itself. Every constructor is one family of failed
assertions, `expect`s or checked operations of the source. -/
inductive Panic where
  | overflow
  | unalignedPage
  | pageOutsideRange
  | beyondSv39
  | misaligned
  | emptyMapping
  | noPermissions
  | outOfPages
  | remap
  | nullRoot
  | userSlotTaken
  | emptyProgram
  | outOfHeap
  | heapListLost
  | heapTwice
  | noCurrent
  | schedDepth
  | stillRunning
  | popOff
  | unreachable
  | kernelFault
  | noForkFrame
  | emptyChannel
  | noEntry
  | deadlock
  deriving DecidableEq, Repr

end Osmium
