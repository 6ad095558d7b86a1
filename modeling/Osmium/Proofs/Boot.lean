import Osmium.Proofs.LedgerRun

namespace Osmium
open Lib Vm Control

variable {T : Type}

namespace Kalloc

/-- The pages that the seeding loop frees, `n` pages from `page` on. -/
def seedsFrom (res : Nat × Nat) : Nat → Nat → List Nat
  | _, 0 => []
  | page, n + 1 =>
    if res.2 ≤ page ∨ page + pageSize ≤ res.1 then page :: seedsFrom res (page + pageSize) n
    else seedsFrom res (page + pageSize) n

/-- What `init` seeds the allocator with. -/
def seeds (allocStart : Nat) (res : Nat × Nat) : List Nat :=
  seedsFrom res (nextMultipleOf allocStart pageSize)
    ((physTop - nextMultipleOf allocStart pageSize) / pageSize)

theorem seedsFrom_iff (res : Nat × Nat) (page n p : Nat) : p ∈ seedsFrom res page n ↔
    page ≤ p ∧ p + 4096 ≤ page + 4096 * n ∧ (p - page) % 4096 = 0 ∧
      (res.2 ≤ p ∨ p + pageSize ≤ res.1) := by
  induction n generalizing page with
  | zero =>
    refine iff_of_false List.not_mem_nil fun h => ?_
    omega
  | succ n ih =>
    have hnext := ih (page + pageSize)
    unfold seedsFrom
    split
    · rw [List.mem_cons, hnext]
      unfold pageSize at *
      omega
    · rw [hnext]
      unfold pageSize at *
      omega

theorem seedsFrom_mem (h : p ∈ seedsFrom res page n) :
    page ≤ p ∧ p + 4096 ≤ page + 4096 * n ∧ (p - page) % 4096 = 0 := by
  obtain ⟨hlow, hhigh, hpage, _⟩ := (seedsFrom_iff res page n p).mp h
  exact ⟨hlow, hhigh, hpage⟩

theorem seedsFrom_nodup (res : Nat × Nat) (page n : Nat) : (seedsFrom res page n).Nodup := by
  induction n generalizing page with
  | zero => exact List.nodup_nil
  | succ n ih =>
    unfold seedsFrom
    split
    · refine List.nodup_cons.mpr ⟨fun h => ?_, ih _⟩
      have := (seedsFrom_mem h).1
      unfold pageSize at this
      omega
    · exact ih _

theorem nextMultipleOf_range (x : Nat) : x ≤ nextMultipleOf x pageSize ∧
    nextMultipleOf x pageSize < x + 4096 ∧ nextMultipleOf x pageSize % 4096 = 0 := by
  unfold nextMultipleOf pageSize
  omega

/-- All whole pages between the end of the heap and the top of memory, but for
the reserved ones. -/
theorem mem_seeds (top : allocStart ≤ physTop) (res : Nat × Nat) (p : Nat) :
    p ∈ seeds allocStart res ↔ p % pageSize = 0 ∧ allocStart ≤ p ∧ p + pageSize ≤ physTop ∧
      (res.2 ≤ p ∨ p + pageSize ≤ res.1) := by
  unfold seeds
  rw [seedsFrom_iff]
  have hr := nextMultipleOf_range allocStart
  unfold physTop dramBase pageSize at *
  omega

/-- The pool of everything that is seeded, from the end of the heap on. -/
def rangePool (pos : 0 < allocStart) (res : Nat × Nat) : PagePool allocStart where
  pages := seeds allocStart res
  nodup := seedsFrom_nodup _ _ _
  page p hp := by
    have h := seedsFrom_mem hp
    have hr := nextMultipleOf_range allocStart
    omega
  pos p hp := by
    have h := seedsFrom_mem hp
    have hr := nextMultipleOf_range allocStart
    omega
  above p hp := by
    have h := seedsFrom_mem hp
    have hr := nextMultipleOf_range allocStart
    omega
  below p hp := by
    have h := seedsFrom_mem hp
    unfold physTop dramBase pageSize at *
    omega

def seedPool (L : Layout) (res : Nat × Nat) : PagePool L.allocStart := rangePool L.allocStart_pos res

theorem seedPool_pages (L : Layout) (res : Nat × Nat) :
    (seedPool L res).pages = seeds L.allocStart res := rfl

theorem seedFrom_stop (allocStart : Nat) (res : Nat × Nat) (h : ¬page + pageSize ≤ physTop) :
    seedFrom allocStart res page P = .ok P := by
  rw [seedFrom.eq_def]
  exact if_neg h

theorem seedFrom_next (allocStart : Nat) (res : Nat × Nat) (h : page + pageSize ≤ physTop)
    (hf : (if res.2 ≤ page ∨ page + pageSize ≤ res.1 then free allocStart P page else .ok P) = .ok P₁) :
    seedFrom allocStart res page P = seedFrom allocStart res (page + pageSize) P₁ := by
  rw [seedFrom.eq_def, if_pos h, hf, ok_bind]

/-- The loop gives every page of its range that misses the reserved one to the
free list, and writes nowhere else. The pages still to come count as held. -/
theorem seedFrom_spec (res : Nat × Nat) (pool : PagePool allocStart) (n page : Nat)
    (hle : page + 4096 * n ≤ 0x88000000) (hlt : 0x88000000 < page + 4096 * (n + 1))
    (hpool : Pool pool P (seedsFrom res page n)) :
    ∃ P', seedFrom allocStart res page P = .ok P' ∧ Pool pool P' [] ∧
      WritesIn P.mem P'.mem (seedsFrom res page n) := by
  induction n generalizing page P with
  | zero =>
    have hstop : ¬page + pageSize ≤ physTop := by
      unfold pageSize physTop dramBase
      omega
    exact ⟨P, seedFrom_stop _ res hstop, hpool, .refl _ _⟩
  | succ n ih =>
    have hmore : page + pageSize ≤ physTop :=
      Nat.le_trans (Nat.add_le_add_left (Nat.le_mul_of_pos_right 4096 (Nat.succ_pos n)) page) hle
    rw [Nat.mul_succ, Nat.add_comm (4096 * n), ← Nat.add_assoc] at hle
    rw [Nat.mul_succ, Nat.add_comm (4096 * (n + 1)), ← Nat.add_assoc] at hlt
    unfold seedsFrom at hpool ⊢
    split at hpool
    next hin =>
      obtain ⟨P₁, hf, hp₁, _, hw₁⟩ := hpool.free
      rw [seedFrom_next _ res hmore (by rw [if_pos hin]; exact hf), if_pos hin]
      obtain ⟨P', hrun, hp', hw'⟩ := ih _ hle hlt hp₁
      exact ⟨P', hrun, hp', (hw₁.mono (by simp)).trans
        (hw'.mono fun q hq => List.mem_cons_of_mem _ hq)⟩
    next hin =>
      rw [seedFrom_next _ res hmore (if_neg hin), if_neg hin]
      exact ih _ hle hlt hpool

/-- Whole pages between the start of the range and its top. -/
theorem seeds_bounds (h : a ≤ 0x88000000) :
    a + 4096 * ((physTop - a) / pageSize) ≤ 0x88000000 ∧
      0x88000000 < a + 4096 * ((physTop - a) / pageSize + 1) := by
  unfold physTop dramBase pageSize
  omega

/-- Wherever the heap ends, seeding gives the whole pool to the free list. -/
theorem init_range (pos : 0 < allocStart) (top : allocStart ≤ physTop)
    (hres : reservedRange reserved = .ok res) (m : Mem) :
    ∃ P, init allocStart reserved m = .ok P ∧ Pool (rangePool pos res) P [] ∧
      WritesIn m P.mem (rangePool pos res).pages := by
  have hstop : nextMultipleOf allocStart pageSize ≤ 0x88000000 := by
    have hr := nextMultipleOf_range allocStart
    unfold physTop dramBase at top
    omega
  obtain ⟨hle, hlt⟩ := seeds_bounds hstop
  have hstart : Pool (rangePool pos res) { mem := m, head := 0, freePages := 0 }
      (seeds allocStart res) := ⟨[], .nil, rfl, .of_eq (List.nil_append _)⟩
  rw [seeds] at hstart
  obtain ⟨P, hrun, hp, hw⟩ := seedFrom_spec res (rangePool pos res) _ _ hle hlt hstart
  refine ⟨P, ?_, hp, hw⟩
  unfold init
  rw [hres, ok_bind]
  exact hrun

theorem init_spec (L : Layout) (hres : reservedRange reserved = .ok res) (m : Mem) :
    ∃ P, init L.allocStart reserved m = .ok P ∧ Pool (seedPool L res) P [] ∧
      WritesIn m P.mem (seedPool L res).pages :=
  init_range L.allocStart_pos L.allocStart_range.2 hres m

end Kalloc

theorem boot_roomy {s : Sys T} (run : kmain E reserved m regs = .ok s) : Roomy s := by
  simp only [kmain, bind_ok, Except.ok.injEq] at run
  obtain ⟨_, _, _, _, _, _, _, _, _, _, _, _, _, _, rfl⟩ := run
  exact Nat.le_refl 0

theorem boot_fresh {s : Sys T} (run : kmain E reserved m regs = .ok s) :
    s.hart.regs = regs ∧ s.ticks = 0 := by
  simp only [kmain, bind_ok, Except.ok.injEq] at run
  obtain ⟨_, _, _, _, _, _, _, _, _, _, _, _, _, _, rfl⟩ := run
  exact ⟨rfl, rfl⟩

theorem step_roomy {s s' : Sys T} (h : Roomy s) (move : Step E s s') : Roomy s' := by
  cases move with
  | exec junk code run => exact (exec_turns code run).slots.room h
  | _ => exact h

theorem boot_manned {s : Sys T} (run : kmain E reserved m regs = .ok s) : Manned s := by
  simp only [kmain, bind_ok, Except.ok.injEq] at run
  obtain ⟨_, _, _, _, _, _, _, _, _, _, _, _, _, _, rfl⟩ := run
  intro j p hp
  cases hp

/-- The self-test takes two pages and gives them back. -/
theorem Pool.self_test {L : Layout} {pool : PagePool L.allocStart} (h : Pool pool P []) (ha : allocPage P = .ok (a, P₁))
    (hb : allocPage P₁ = .ok (b, P₂)) (hfa : Kalloc.free L.allocStart P₂ a = .ok P₃)
    (hfb : Kalloc.free L.allocStart P₃ b = .ok P₄) : Pool pool P₄ [] := by
  have h₁ := (h.alloc_some (allocPage_some ha)).1
  have h₂ := (h₁.alloc_some (allocPage_some hb)).1
  obtain ⟨P₃', hfa', h₃, _⟩ := (h₂.perm (.swap _ _ _)).free
  obtain rfl := Except.ok.inj (hfa'.symm.trans hfa)
  obtain ⟨P₄', hfb', h₄, _⟩ := h₃.free
  obtain rfl := Except.ok.inj (hfb'.symm.trans hfb)
  exact h₄

theorem boot_spaces {L : Layout} {pool : PagePool L.allocStart} (hpool : Pool pool P [])
    (hkvm : kvmmake L P = .ok (root, P'))
    (hheap : Heap.init L P'.mem { head := 0, freeBytes := 0 } = .ok (m', h')) :
    Estate pool root { P' with mem := m' } h' [] [] := by
  obtain ⟨hpool', hkernel⟩ := kvmmake_spec hpool hkvm
  obtain ⟨m₁, h₁, hheap', hcar, hsame⟩ := Heap.Carries.start L P'.mem 0
  obtain ⟨rfl, rfl⟩ := Prod.mk.inj (Except.ok.inj (hheap'.symm.trans hheap))
  have hspaces : Spaces pool P' root [] :=
    { kernel := hkernel
      roots := nofun
      fits := nofun
      pool := hpool'.perm (.of_eq (List.append_nil _).symm) }
  exact ⟨hspaces.write fun q hq _ => hsame q 4096 (heap_apart hq), hcar⟩

/-- Nothing is owned but the kernel's own table. -/
theorem Ledger.start {s : Sys T} {pool : PagePool E.allocStart}
    (h : Estate pool s.kernelRoot s.phys s.heap [] []) (hprocs : s.procs = [])
    (hcap : s.procsCap = 0) (hboxes : s.boxes = []) (hnext : s.nextPid = 1)
    (hcode : s.hart.code = [.boot]) (hsched : s.schedulerCtx.code = []) : Ledger E pool [] s := by
  have hstock : stock E s = [] := by
    unfold stock slots gather codes
    rw [hprocs, hcode, hsched]
    rfl
  have hfixed : fixed s = [] := by
    unfold fixed
    rw [if_pos hcap, hboxes]
    rfl
  unfold Ledger
  rw [hstock]
  refine ⟨?_, ?_⟩
  · rw [hfixed]
    exact h
  · rw [hnext]
    exact ⟨Nat.one_pos, nofun, nofun, List.nodup_nil⟩

theorem boot_ledger {s : Sys T} (run : kmain E reserved m regs = .ok s) :
    ∃ res, Kalloc.reservedRange reserved = .ok res ∧
      Ledger E (Kalloc.seedPool E.toLayout res) [] s := by
  simp only [kmain, bind_ok, Except.ok.injEq] at run
  obtain ⟨P, hinit, ⟨a, P₁⟩, ha, ⟨b, P₂⟩, hb, P₃, hfa, P₄, hfb, ⟨root, P₅⟩, hkvm, ⟨m', hp⟩, hheap,
    rfl⟩ := run
  have hres : ∃ res, Kalloc.reservedRange reserved = .ok res := by
    unfold Kalloc.init at hinit
    rw [bind_ok] at hinit
    obtain ⟨res, hres, _⟩ := hinit
    exact ⟨res, hres⟩
  obtain ⟨res, hres⟩ := hres
  obtain ⟨P', hinit', hpool, _⟩ := Kalloc.init_spec E.toLayout hres m
  obtain rfl := Except.ok.inj (hinit'.symm.trans hinit)
  have howns := boot_spaces (hpool.self_test ha hb hfa hfb) hkvm hheap
  exact ⟨res, hres, .start howns rfl rfl rfl rfl rfl rfl⟩

end Osmium
