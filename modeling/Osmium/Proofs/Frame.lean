import Mathlib.Data.List.ReduceOption
import Osmium.Lib.Lists
import Osmium.Lib.Loops
import Osmium.Step

namespace Osmium
open Lib

variable {T : Type}

theorem Sys.proc_setProc (s : Sys T) (i j : Nat) (g : Process T → Process T) :
    (s.setProc i g).proc j = if j = i then (s.proc j).map g else s.proc j := by
  unfold Sys.setProc Sys.proc
  simp only [List.getElem?_modify]
  by_cases h : j = i
  · subst h
    cases s.procs[j]? with
    | none => simp
    | some o => cases o <;> simp
  · simp [h, Ne.symm h]

theorem Sys.currentProc_eq {s : Sys T} (h : s.currentProc = some (i, p)) :
    s.current = some i ∧ s.proc i = some p := by
  unfold Sys.currentProc at h
  cases hc : s.current with
  | none => simp [hc] at h
  | some j =>
    simp only [hc, Option.bind_some, Option.map_eq_some_iff, Prod.mk.injEq] at h
    obtain ⟨q, hq, rfl, rfl⟩ := h
    exact ⟨rfl, hq⟩

theorem Sys.currentProc_some {s : Sys T} (hc : s.current = some i) (hp : s.proc i = some p) :
    s.currentProc = some (i, p) := by simp [Sys.currentProc, hc, hp]

/-- Kernel work on memory alone. -/
def OnlyMem (s s' : Sys T) : Prop := s' = { s with phys := s'.phys, heap := s'.heap }

namespace OnlyMem

theorem refl (s : Sys T) : OnlyMem s s := rfl

theorem trans {s s' s'' : Sys T} (h : OnlyMem s s') (h' : OnlyMem s' s'') : OnlyMem s s'' := by
  unfold OnlyMem at h h' ⊢
  rw [h', h]

theorem alloc {s s' : Sys T} (h : s.alloc size k = .ok (p, s')) : OnlyMem s s' := by
  simp only [Sys.alloc, bind_ok] at h
  obtain ⟨r, _, ⟨o, m, hp⟩, _, h⟩ := h
  cases o with
  | none => cases h
  | some p' =>
    simp only [Except.ok.injEq, Prod.mk.injEq] at h
    obtain ⟨_, rfl⟩ := h
    rfl

theorem dealloc {s s' : Sys T} (h : s.dealloc p = .ok s') : OnlyMem s s' := by
  simp only [Sys.dealloc, bind_ok, Except.ok.injEq] at h
  obtain ⟨_, _, rfl⟩ := h
  rfl

theorem withCapacity {s s' : Sys T} (h : Syscall.withCapacity s cap = .ok (b, s')) :
    OnlyMem s s' := by
  unfold Syscall.withCapacity at h
  split at h
  · cases h
    exact refl _
  · simp only [bind_ok, Except.ok.injEq, Prod.mk.injEq] at h
    obtain ⟨⟨p, s₁⟩, ha, _, rfl⟩ := h
    exact alloc ha

theorem dropBuf {s s' : Sys T} (h : Syscall.dropBuf s b = .ok s') : OnlyMem s s' := by
  cases b with
  | none => cases h; exact refl _
  | some p => exact dealloc h

theorem dropFrame {s s' : Sys T} (h : Proc.dropFrame s f = .ok s') : OnlyMem s s' := by
  rcases f with _ | ⟨b, f⟩
  · cases h
    exact refl _
  · exact dealloc h

theorem phys (s : Sys T) (P : Phys) : OnlyMem s { s with phys := P } := rfl

theorem copyFromUser {s : Sys T} {t : Syscall.Transfer T Syscall.Buf}
    (h : Syscall.copyFromUser s ptr len = .ok t) : OnlyMem s t.sys := by
  unfold Syscall.copyFromUser at h
  split at h
  · cases h
    exact refl _
  · simp only [bind_ok] at h
    obtain ⟨ok, _, h⟩ := h
    split at h
    · simp only [bind_ok, Except.ok.injEq] at h
      obtain ⟨⟨b, s₁⟩, hc, _, _, rfl⟩ := h
      exact withCapacity hc
    · cases h
      exact refl _

theorem copyToUser {s : Sys T} {t : Syscall.Transfer T Nat}
    (h : Syscall.copyToUser s ptr src = .ok t) : OnlyMem s t.sys := by
  unfold Syscall.copyToUser at h
  split at h
  · cases h
    exact refl _
  · simp only [bind_ok] at h
    obtain ⟨ok, _, h⟩ := h
    split at h
    · simp only [bind_ok, Except.ok.injEq] at h
      obtain ⟨_, _, rfl⟩ := h
      exact phys _ _
    · cases h
      exact refl _

theorem sysWrite {s s' : Sys T} (h : Syscall.sysWrite s ptr len = .ok (n, s')) : OnlyMem s s' := by
  unfold Syscall.sysWrite at h
  split at h
  · cases h
    exact refl _
  · simp only [bind_ok] at h
    obtain ⟨t, ht, h⟩ := h
    split at h
    · cases h
      exact copyFromUser ht
    · simp only [bind_ok, Except.ok.injEq, Prod.mk.injEq] at h
      obtain ⟨s₁, hd, _, rfl⟩ := h
      exact (copyFromUser ht).trans (dropBuf hd)

theorem copyOut {s s' : Sys T} (h : Syscall.copyOut s ptr src = .ok (n, s')) : OnlyMem s s' := by
  simp only [Syscall.copyOut, bind_ok, Except.ok.injEq, Prod.mk.injEq] at h
  obtain ⟨t, ht, _, rfl⟩ := h
  exact copyToUser ht

theorem withName {s s' : Sys T} {lookup : List UInt8 → Option α}
    (h : Syscall.withName s ptr len lookup = .ok (r, s')) : OnlyMem s s' := by
  unfold Syscall.withName at h
  split at h
  · cases h
    exact refl _
  · simp only [bind_ok] at h
    obtain ⟨t, ht, h⟩ := h
    split at h
    · cases h
      exact copyFromUser ht
    · split at h
      · simp only [bind_ok, Except.ok.injEq, Prod.mk.injEq] at h
        obtain ⟨s₁, hd, _, rfl⟩ := h
        exact (copyFromUser ht).trans (dropBuf hd)
      · cases h
        exact copyFromUser ht

theorem servicePageFault {s s' : Sys T} (h : Proc.servicePageFault s addr = .ok (b, s')) :
    OnlyMem s s' := by
  unfold Proc.servicePageFault at h
  split at h
  · cases h
    exact refl _
  · split at h
    · cases h
      exact refl _
    · simp only [bind_ok] at h
      obtain ⟨o, _, h⟩ := h
      split at h
      · cases h
        exact refl _
      · simp only [bind_ok] at h
        obtain ⟨⟨o, P⟩, _, h⟩ := h
        cases o with
        | none =>
          cases h
          exact phys _ _
        | some frame =>
          simp only [bind_ok, Except.ok.injEq, Prod.mk.injEq] at h
          obtain ⟨_, _, _, rfl⟩ := h
          exact phys _ _

theorem freeTable {s s' : Sys T} (h : Proc.freeTable E s t = .ok s') : OnlyMem s s' := by
  simp only [Proc.freeTable, bind_ok, Except.ok.injEq] at h
  obtain ⟨P, _, rfl⟩ := h
  exact phys _ _

theorem dropProcess {s s' : Sys T} (h : Proc.dropProcess s p = .ok s') : OnlyMem s s' := by
  simp only [Proc.dropProcess, bind_ok] at h
  obtain ⟨s₁, h1, s₂, h2, h3⟩ := h
  exact ((dropFrame h1).trans (dealloc h2)).trans (dealloc h3)

end OnlyMem

/-- A process without the fields its own calls change. -/
def core (p : Process T) : Process T := { p with fds := [], heapBrk := 0 }

theorem Proc.growProcs_eq {s s' : Sys T} (h : growProcs s = .ok s') :
    s.procs.length < s.procsCap ∧ s' = s ∨ ∃ p s₂, OnlyMem s s₂ ∧ s' = { s₂ with
      procsPtr := p
      procsCap := max (max (2 * s.procsCap) (s.procs.length + 1)) 4 } := by
  unfold growProcs at h
  split at h
  next hlt =>
    cases h
    exact .inl ⟨hlt, rfl⟩
  · simp only [bind_ok, Except.ok.injEq] at h
    obtain ⟨⟨p, s₁⟩, ha, s₂, hd, rfl⟩ := h
    refine .inr ⟨p, s₂, (OnlyMem.alloc ha).trans ?_, rfl⟩
    split at hd
    · cases hd
      exact .refl _
    · exact .dealloc hd

/-- The vector of slots has room for them. -/
def Roomy (s : Sys T) : Prop := s.procs.length ≤ s.procsCap

/-- The vector never shrinks, and keeps to its room. -/
structure Slots (s s' : Sys T) : Prop where
  grows : s.procs.length ≤ s'.procs.length
  room : Roomy s → Roomy s'

namespace Slots

theorem same {s s' : Sys T} (hlen : s'.procs.length = s.procs.length)
    (hcap : s'.procsCap = s.procsCap) : Slots s s' := by
  refine ⟨Nat.le_of_eq hlen.symm, fun h => ?_⟩
  unfold Roomy
  rwa [hlen, hcap]

theorem trans {s s' s'' : Sys T} (h : Slots s s') (h' : Slots s' s'') : Slots s s'' :=
  ⟨Nat.le_trans h.grows h'.grows, h'.room ∘ h.room⟩

end Slots

theorem length_setProc (s : Sys T) (i : Nat) (g : Process T → Process T) :
    (s.setProc i g).procs.length = s.procs.length := by
  unfold Sys.setProc
  rw [List.length_modify]

/-- Kernel work that leaves the hart, the scheduler, the devices and the locks
alone, and of the processes at most what `core` leaves out. -/
structure Serves (s s' : Sys T) : Prop where
  hart : s'.hart = s.hart
  procs : ∀ j, (s'.proc j).map core = (s.proc j).map core
  current : s'.current = s.current
  sched : s'.schedulerCtx = s.schedulerCtx
  root : s'.kernelRoot = s.kernelRoot
  sem : s'.sem = s.sem
  chan : s'.chan = s.chan
  locked : s'.locked = s.locked
  ticks : s'.ticks = s.ticks
  input : s'.input = s.input
  slots : Slots s s'
  next : s'.nextSlot = s.nextSlot

namespace Serves

theorem refl (s : Sys T) : Serves s s := ⟨rfl, fun _ => rfl, rfl, rfl, rfl, rfl, rfl, rfl, rfl, rfl, .same rfl rfl, rfl⟩

theorem trans {s s' s'' : Sys T} (h : Serves s s') (h' : Serves s' s'') : Serves s s'' where
  hart := h'.hart.trans h.hart
  procs j := (h'.procs j).trans (h.procs j)
  current := h'.current.trans h.current
  sched := h'.sched.trans h.sched
  root := h'.root.trans h.root
  sem := h'.sem.trans h.sem
  chan := h'.chan.trans h.chan
  locked := h'.locked.trans h.locked
  ticks := h'.ticks.trans h.ticks
  input := h'.input.trans h.input
  slots := h.slots.trans h'.slots
  next := h'.next.trans h.next

theorem setProc (s : Sys T) (i : Nat) (g : Process T → Process T) (hg : ∀ p, core (g p) = core p) :
    Serves s (s.setProc i g) where
  hart := rfl
  procs j := by
    rw [Sys.proc_setProc]
    split
    · cases s.proc j with
      | none => rfl
      | some p => exact congrArg some (hg p)
    · rfl
  current := rfl
  sched := rfl
  root := rfl
  sem := rfl
  chan := rfl
  locked := rfl
  ticks := rfl
  input := rfl
  slots := .same (length_setProc s i g) rfl
  next := rfl

theorem of_mem {s s' : Sys T} (h : OnlyMem s s') : Serves s s' := by
  rw [h]
  exact ⟨rfl, fun _ => rfl, rfl, rfl, rfl, rfl, rfl, rfl, rfl, rfl, .same rfl rfl, rfl⟩

theorem fdInstall (s : Sys T) (idx : Nat) : Serves s (Proc.fdInstall s idx).2 := by
  unfold Proc.fdInstall
  split
  · exact refl _
  · split
    · exact refl _
    · exact setProc _ _ _ (fun _ => rfl)

theorem fdAdvance {s s' : Sys T} (h : Proc.fdAdvance s fd delta = .ok s') : Serves s s' := by
  unfold Proc.fdAdvance at h
  split at h
  · cases h
    exact refl _
  · split at h
    · cases h
      exact refl _
    · simp only [bind_ok, Except.ok.injEq] at h
      obtain ⟨_, _, rfl⟩ := h
      exact setProc _ _ _ (fun _ => rfl)

theorem fdClose (s : Sys T) (fd : Nat) : Serves s (Proc.fdClose s fd).2 := by
  unfold Proc.fdClose
  split
  · exact refl _
  · split
    · exact refl _
    · exact setProc _ _ _ (fun _ => rfl)

theorem sbrk (s : Sys T) (delta : Nat) : Serves s (Proc.sbrk s delta).2 := by
  unfold Proc.sbrk
  split
  · exact refl _
  · dsimp only
    split
    · exact refl _
    · split
      · exact refl _
      · exact setProc _ _ _ (fun _ => rfl)

theorem sysOpen {s s' : Sys T} (h : Syscall.sysOpen E s ptr len = .ok (n, s')) : Serves s s' := by
  simp only [Syscall.sysOpen, bind_ok] at h
  obtain ⟨⟨r, s₁⟩, hn, h⟩ := h
  rcases r with _ | ⟨idx, buf⟩
  · cases h
    exact of_mem (.withName hn)
  · simp only [bind_ok, Except.ok.injEq, Prod.mk.injEq] at h
    obtain ⟨s₂, hd, _, rfl⟩ := h
    exact ((of_mem (.withName hn)).trans (fdInstall s₁ idx)).trans (of_mem (.dropBuf hd))

theorem sysFread {s s' : Sys T} (h : Syscall.sysFread E s fd ptr len = .ok (n, s')) :
    Serves s s' := by
  unfold Syscall.sysFread at h
  split at h
  · cases h
    exact refl _
  · dsimp only at h
    split at h
    · cases h
      exact refl _
    · simp only [bind_ok] at h
      obtain ⟨⟨b, s₁⟩, ha, t, ht, h⟩ := h
      have h1 := of_mem ((OnlyMem.alloc ha).trans (.copyToUser ht))
      split at h
      · simp only [bind_ok, Except.ok.injEq, Prod.mk.injEq] at h
        obtain ⟨s₂, hd, _, rfl⟩ := h
        exact h1.trans (of_mem (.dealloc hd))
      · simp only [bind_ok, Except.ok.injEq, Prod.mk.injEq] at h
        obtain ⟨s₂, hadv, s₃, hd, _, rfl⟩ := h
        exact (h1.trans (fdAdvance hadv)).trans (of_mem (.dealloc hd))

theorem spawnWith {s s' : Sys T} {cfg : ProcData → ProcData}
    (h : Proc.spawnWith E s entry cfg = .ok (d, s')) : Serves s s' := by
  simp only [Proc.spawnWith, bind_ok, Except.ok.injEq, Prod.mk.injEq] at h
  obtain ⟨⟨kstack, s₁⟩, h1, ⟨box, s₂⟩, h2, _, rfl⟩ := h
  have hpid : Serves s₁ { s₁ with nextPid := s₁.nextPid + 1 } :=
    ⟨rfl, fun _ => rfl, rfl, rfl, rfl, rfl, rfl, rfl, rfl, rfl, .same rfl rfl, rfl⟩
  exact ((of_mem (.alloc h1)).trans hpid).trans (of_mem (.alloc h2))

theorem box {s s' : Sys T} (h : Proc.box s size k = .ok s') : Serves s s' := by
  unfold Proc.box at h
  split at h
  · cases h
    exact refl _
  · simp only [bind_ok, Except.ok.injEq] at h
    obtain ⟨⟨p, s₁⟩, ha, rfl⟩ := h
    exact (of_mem (.alloc ha)).trans ⟨rfl, fun _ => rfl, rfl, rfl, rfl, rfl, rfl, rfl, rfl, rfl, .same rfl rfl, rfl⟩

theorem unbox {s s' : Sys T} (h : Proc.unbox s i = .ok s') : Serves s s' := by
  unfold Proc.unbox at h
  split at h
  · cases h
    exact refl _
  · simp only [bind_ok, Except.ok.injEq] at h
    obtain ⟨s₁, hd, rfl⟩ := h
    exact (of_mem (.dealloc hd)).trans ⟨rfl, fun _ => rfl, rfl, rfl, rfl, rfl, rfl, rfl, rfl, rfl, .same rfl rfl, rfl⟩

theorem growProcs {s s' : Sys T} (h : Proc.growProcs s = .ok s') : Serves s s' := by
  rcases Proc.growProcs_eq h with ⟨_, rfl⟩ | ⟨p, s₂, hm, rfl⟩
  · exact refl _
  · refine (of_mem hm).trans ⟨rfl, fun _ => rfl, rfl, rfl, rfl, rfl, rfl, rfl, rfl, rfl,
      ⟨Nat.le_refl _, fun _ => ?_⟩, rfl⟩
    show s₂.procs.length ≤ _
    rw [hm]
    show s.procs.length ≤ max (max (2 * s.procsCap) (s.procs.length + 1)) 4
    omega

end Serves

theorem Console.ringPush_eq (s : Sys T) (byte : UInt8) :
    ringPush s byte = { s with input := (ringPush s byte).input } := by
  unfold ringPush
  dsimp only
  split <;> rfl

theorem Console.getchar_eq (s : Sys T) :
    (getchar s).2 = { s with input := (getchar s).2.input } := by
  unfold getchar
  dsimp only
  split <;> rfl

/-- Both ways out of the input loop's check. -/
theorem Console.getcharCheck_eq (s : Sys T) (r : Reader) (k : List (Instr T)) :
    (s.input.r = s.input.w ∧ getcharCheck s r k =
      s.goto (.release .input :: Proc.sleep .input ++ [.popOff, .getcharLoop r] ++ k)) ∨
    (s.input.r ≠ s.input.w ∧ getcharCheck s r k =
      Sys.goto { s with input := { s.input with r := s.input.r + 1 } }
        (.release .input :: .popOff :: .gotChar r (s.input.buf (s.input.r % inputCap)) :: k)) := by
  unfold getcharCheck getchar
  dsimp only
  by_cases he : s.input.r = s.input.w
  · rw [if_pos he]
    exact .inl ⟨he, rfl⟩
  · rw [if_neg he]
    exact .inr ⟨he, rfl⟩

theorem Syscall.drain_eq (s : Sys T) (n : Nat) :
    (drain s n).2 = { s with input := (drain s n).2.input } := by
  induction n generalizing s with
  | zero => rfl
  | succ n ih =>
    have hg := Console.getchar_eq s
    unfold drain
    split
    · rename_i s₁ he
      rw [he] at hg
      exact hg
    · rename_i b s₁ he
      rw [he] at hg
      dsimp only at hg ⊢
      rw [ih s₁, hg]

namespace Proc

theorem setState_eq {s s' : Sys T} (h : setState s st = .ok s') :
    ∃ i p, s.current = some i ∧ s.proc i = some p ∧
      s' = s.setProc i (fun p => { p with state := st }) := by
  unfold setState at h
  split at h
  · cases h
  · rename_i i p hc
    obtain ⟨h1, h2⟩ := Sys.currentProc_eq hc
    exact ⟨i, p, h1, h2, (Except.ok.inj h).symm⟩

/-- The context `sched` leaves in the caller's slot. -/
def saved (s : Sys T) (k : List (Instr T)) : Context T :=
  ⟨.setIntena s.hart.intena :: k, s.hart.stack⟩

theorem sched_eq {s s' : Sys T} (h : sched s k = .ok s') :
    s.hart.noff = 1 ∧ ∃ i p, s.current = some i ∧ s.proc i = some p ∧ p.state ≠ .running ∧
      s' = { s.setProc i (fun p => { p with context := saved s k }) with
        hart := { s.hart with code := s.schedulerCtx.code, stack := s.schedulerCtx.stack }
        schedulerCtx := ⟨[], s.schedulerCtx.stack⟩ } := by
  unfold sched at h
  split at h
  · cases h
  · rename_i hn
    split at h
    · cases h
    · rename_i i p hc
      obtain ⟨h1, h2⟩ := Sys.currentProc_eq hc
      split at h
      · cases h
      · rename_i hr
        exact ⟨not_not.mp hn, i, p, h1, h2, hr, (Except.ok.inj h).symm⟩

theorem swtchTo_eq {s s' : Sys T} (h : swtchTo s i k = .ok s') :
    ∃ p, s.proc i = some p ∧
      s' = { s.setProc i (fun p => { p with context := ⟨[], p.context.stack⟩ }) with
        schedulerCtx := ⟨k, s.hart.stack⟩
        hart := { s.hart with code := p.context.code, stack := p.context.stack } } := by
  unfold swtchTo at h
  split at h
  · cases h
  · rename_i p hp
    exact ⟨p, hp, (Except.ok.inj h).symm⟩

theorem scan_runnable {s : Sys T} (h : scan s = some i) :
    ∃ p, s.proc i = some p ∧ p.state = .runnable := by
  have hr := List.find?_some h
  unfold isRunnable at hr
  cases hp : s.proc i with
  | none => simp [hp] at hr
  | some p => exact ⟨p, rfl, by simpa [hp] using hr⟩

theorem pick_eq {s s' : Sys T} (h : pick s = .ok s') :
    (scan s = none ∧ s' = s.goto [.popOff, .intrOn, .wfi, .schedLoop]) ∨
      ∃ i p, scan s = some i ∧ s.proc i = some p ∧ p.state = .runnable ∧
        s' = Sys.goto { s.setProc i (fun p => { p with state := .running }) with
          nextSlot := i + 1
          current := some i } ([.switchTo p.pageTable, .swtchTo i] ++ afterSwitch s) := by
  unfold pick at h
  split at h
  · rename_i hs
    exact .inl ⟨hs, (Except.ok.inj h).symm⟩
  · rename_i i hs
    obtain ⟨q, hq, hr⟩ := scan_runnable hs
    split at h
    · cases h
    · rename_i p hp
      obtain rfl := Option.some.inj (hp.symm.trans hq)
      exact .inr ⟨i, p, hs, hp, hr, (Except.ok.inj h).symm⟩

theorem growProcs_procs {s s' : Sys T} (h : growProcs s = .ok s') : s'.procs = s.procs := by
  rcases growProcs_eq h with ⟨_, rfl⟩ | ⟨p, s₂, hm, rfl⟩
  · rfl
  · show s₂.procs = s.procs
    rw [hm]

/-- One turn of the reap loop. -/
theorem reap_eq {s s' : Sys T} (h : reap E s i = .ok s') :
    (s' = s ∧ ∀ p, s.proc i = some p → p.state ≠ .zombie) ∨
      ∃ p s₁ s₂, s.proc i = some p ∧ p.state = .zombie ∧
        (match p.userTable with | none => s₁ = s | some t => freeTable E s t = .ok s₁) ∧
        dropProcess s₁ p = .ok s₂ ∧ OnlyMem s s₂ ∧ s' = { s₂ with procs := s.procs.set i none } := by
  unfold reap at h
  split at h
  · rename_i hn
    cases h
    exact .inl ⟨rfl, fun p hp => by rw [hn] at hp; cases hp⟩
  · rename_i p hp
    split at h
    · rename_i hz
      simp only [bind_ok, Except.ok.injEq] at h
      obtain ⟨s₁, ht, s₂, hd, rfl⟩ := h
      have h1 : (match p.userTable with | none => s₁ = s | some t => freeTable E s t = .ok s₁) ∧
          OnlyMem s s₁ := by
        cases htab : p.userTable with
        | none =>
          rw [htab] at ht
          obtain rfl := Except.ok.inj ht
          exact ⟨rfl, .refl _⟩
        | some t =>
          rw [htab] at ht
          exact ⟨ht, .freeTable ht⟩
      have hm := h1.2.trans (.dropProcess hd)
      exact .inr ⟨p, s₁, s₂, hp, hz, h1.1, hd, hm, by rw [hm]⟩
    · rename_i hz
      cases h
      refine .inl ⟨rfl, fun q hq => ?_⟩
      rwa [← Option.some.inj (hp.symm.trans hq)]

theorem proc_set (l : List (Option (Process T))) (i j : Nat) (o : Option (Process T))
    (hi : i < l.length) : ((l.set i o)[j]?).join = if j = i then o else (l[j]?).join := by
  rw [List.getElem?_set]
  by_cases h : i = j
  · subst h
    simp [hi]
  · simp [h, Ne.symm h]

theorem publish_slots {s s' : Sys T} (run : publish s d = .ok s') : Slots s s' := by
  unfold publish at run
  split at run
  · obtain rfl := Except.ok.inj run
    exact .same List.length_set rfl
  · simp only [bind_ok, Except.ok.injEq] at run
    obtain ⟨s₁, hg, rfl⟩ := run
    have hlen : (s₁.procs ++ [some (fresh d)]).length = s.procs.length + 1 := by
      rw [growProcs_procs hg, List.length_append, List.length_singleton]
    refine ⟨?_, fun h => ?_⟩
    · show s.procs.length ≤ (s₁.procs ++ _).length
      omega
    · show (s₁.procs ++ _).length ≤ s₁.procsCap
      rw [hlen]
      rcases growProcs_eq hg with ⟨hlt, rfl⟩ | ⟨p, s₂, _, rfl⟩
      · exact hlt
      · show s.procs.length + 1 ≤ max (max (2 * s.procsCap) (s.procs.length + 1)) 4
        omega

/-- Publication: the process lands in a slot that was empty. -/
theorem publish_eq {s s' : Sys T} (h : publish s d = .ok s') :
    ∃ s₁ slot, (s₁ = s ∨ growProcs s = .ok s₁) ∧ s.proc slot = none ∧
      s' = { s₁ with procs := s'.procs } ∧
      (∀ j, s'.proc j = if j = slot then some (fresh d) else s.proc j) ∧
      (s'.procs.reduceOption).Perm (fresh d :: s.procs.reduceOption) := by
  unfold publish at h
  split at h
  · rename_i i hf
    obtain ⟨hi, hn, _⟩ := List.findIdx?_eq_some_iff_getElem.mp hf
    have hg : s.procs[i]? = some none := by
      rw [List.getElem?_eq_getElem hi, Option.isNone_iff_eq_none.mp hn]
    obtain ⟨pre, post, hl, hset, _⟩ := split_at hg
    refine ⟨s, i, .inl rfl, by simp [Sys.proc, hg], ?_, ?_, ?_⟩
    · rw [← Except.ok.inj h]
    · intro j
      rw [← Except.ok.inj h]
      exact proc_set _ _ _ _ hi
    · rw [← Except.ok.inj h]
      show ((s.procs.set i (some (fresh d))).reduceOption).Perm _
      rw [hset, hl]
      simp [List.reduceOption_append, List.reduceOption_cons_of_some,
        List.reduceOption_cons_of_none, List.perm_middle]
  · simp only [bind_ok, Except.ok.injEq] at h
    obtain ⟨s₁, hg, rfl⟩ := h
    have hs := growProcs_procs hg
    refine ⟨s₁, s.procs.length, .inr hg, by simp [Sys.proc], rfl, ?_, ?_⟩
    · intro j
      show ((s₁.procs ++ [some (fresh d)])[j]?).join = _
      rw [hs, List.getElem?_append]
      by_cases hj : j < s.procs.length
      · simp [hj, Nat.ne_of_lt hj, Sys.proc]
      · by_cases he : j = s.procs.length
        · simp [he]
        · have h1 : s.procs[j]? = none := List.getElem?_eq_none (Nat.le_of_not_lt hj)
          have h2 : ([some (fresh d)] : List (Option (Process T)))[j - s.procs.length]? = none :=
            List.getElem?_eq_none (by simp; omega)
          rw [if_neg hj, if_neg he, h2, Sys.proc, h1]
    · show (s₁.procs ++ [some (fresh d)]).reduceOption.Perm _
      rw [hs]
      simp [List.reduceOption_append, List.reduceOption_cons_of_some]

end Proc
end Osmium
