import Osmium.Proofs.Ecall
import Osmium.Proofs.Locks
import Osmium.Proofs.Startup

namespace Osmium
open Lib Vm Control Syscall

variable {T : Type} {E : Env} {pool : PagePool E.allocStart} {s s' : Sys T}

namespace Instr

/-- The pieces that ask the heap for something. -/
def allocs : Instr T → Bool
  | .box .. | .spawn | .spawnUser .. | .fork _ | .publish _ | .kerneltrap .. => true
  | _ => false

/-- The pages a piece can use up. A page that is hung into a space may bring two
tables with it. -/
def pages (s : Sys T) : Instr T → Nat
  | .loadImage .. => 1
  | .loadText .. | .loadStack .. | .kerneltrap .. => 3
  | .fork _ => 1 + 3 * (userFrames s.phys.mem (Proc.currentRoot s)).length
  | _ => 0

end Instr

/-- The ways the kernel can stop: it wants memory, a deadline or a count leaves
the machine's words, a kernel thread asks for a block no heap could hold, or an
instruction lies at an odd address. -/
inductive Excused (s : Sys T) : Instr T → Panic → Prop where
  | heap (asks : i.allocs = true) : Excused s i .outOfHeap
  | pages (few : s.phys.freePages < i.pages s) : Excused s i .outOfPages
  | deadline (late : 2 ^ 64 ≤ s.ticks + n) : Excused s (.sleepTicks n) .overflow
  | count (full : 2 ^ 64 ≤ (s.sem a).count + 1) : Excused s (.increment a) .overflow
  | layout (large : 2 ^ 63 < size + 2 ^ k) : Excused s (.box size k) .overflow
  | odd (unaligned : f.sepc % 2 = 1) : Excused s (.kerneltrap f 3 stval) .kernelFault

theorem Excused.lack (ha : i.allocs = true) (h : e = .outOfHeap ∨ e = .outOfPages ∧ s.phys.freePages < i.pages s) :
    Excused s i e := by
  rcases h with rfl | ⟨rfl, hfew⟩
  · exact .heap ha
  · exact .pages hfew

/-! ### The interrupt bookkeeping and the scheduler -/

theorem Control.AtThread.calls (h : AtThread s i p) : s.currentProc = some (i, p) :=
  Sys.currentProc_some h.current h.here

/-- A current process is there. -/
theorem Control.Holds.current (h : Holds S lvl top s) (hcur : s.current = some j) :
    ∃ p, s.currentProc = some (j, p) := by
  have found : ∀ {i p}, s.current = some i → s.proc i = some p → ∃ p, s.currentProc = some (j, p) := by
    intro i p hi hp
    obtain rfl := Option.some.inj (hi.symm.trans hcur)
    exact ⟨p, Sys.currentProc_some hi hp⟩
  have still : ∀ {dead}, Still s dead → ∃ p, s.currentProc = some (j, p) := by
    intro dead hs
    rw [hs.1] at hcur
    cases hcur
  have hp := h.place
  cases S with
  | thread | parted | moving | user =>
    obtain ⟨i, p, hat, _⟩ := hp
    exact found hat.current hat.here
  | boot | reaping | scanned => exact still hp.2
  | picked i root =>
    obtain ⟨_, _, hc, _, p, hp, _⟩ := hp
    exact found hc hp
  | ready i =>
    obtain ⟨_, _, hc, p, hp, _⟩ := hp
    exact found hc hp
  | returned =>
    obtain ⟨_, i, p, _, hc, hp, _⟩ := hp
    exact found hc hp
  | restored =>
    obtain ⟨_, _, i, p, _, hc, hp, _⟩ := hp
    exact found hc hp

theorem pick_total (s : Sys T) : ∃ s', Proc.pick s = .ok s' := by
  unfold Proc.pick
  cases hscan : Proc.scan s with
  | none => exact ⟨_, rfl⟩
  | some i =>
    -- the scan stops at a slot that somebody sits in
    have hrun : Proc.isRunnable s i = true := List.find?_some hscan
    obtain ⟨p, hp, _⟩ := (Option.any_eq_true _ _).mp hrun
    dsimp only
    rw [hp]
    exact ⟨_, rfl⟩

/-- The accounts with what the next piece carries in front. -/
theorem Sane.piece (h : Sane E pool lost s) (hcode : s.hart.code = i :: k) :
    ∃ R, Books E pool s (carried E i ++ R) := by
  obtain ⟨R, hb, _⟩ := h.ledger.piece (A := []) (L := slots s) ⟨rfl, fun _ => rfl⟩ hcode (.refl _)
  exact ⟨R, hb⟩

theorem Sane.pageTable_pos (h : Sane E pool lost s) (hp : s.proc j = some p) : p.pageTable ≠ 0 := by
  have hpage := (h.sound hp).page
  cases ht : p.userTable with
  | none =>
    rw [ht] at hpage
    rw [hpage]
    exact h.ledger.kernelRoot_pos
  | some t =>
    rw [ht] at hpage
    have hin : t ∈ claimed s.phys.mem s.kernelRoot (estate E lost s) :=
      List.mem_append_right _ (List.mem_flatMap.mpr ⟨_, holding_mem hp ht, root_owned _ _⟩)
    have hpos := pool.pos _ (h.spaces.pool.mem hin)
    rw [hpage, Option.getD_some]
    omega

theorem Sane.reap_ends (h : Sane E pool lost s) (hcode : s.hart.code = .reap j :: k) :
    Ends Never (Proc.reapLoop E s j) (fun _ => True) := by
  unfold Proc.reapLoop
  split
  · suffices hreap : Ends Never (Proc.reap E s j) (fun _ => True) from hreap.bind fun _ _ _ => .ok trivial
    cases hp : s.proc j with
    | none =>
      unfold Proc.reap
      rw [hp]
      exact .ok trivial
    | some p =>
      by_cases hz : p.state = .zombie
      · obtain ⟨L, hslots, _⟩ := slots_change hp hp (fun _ _ => rfl)
        obtain ⟨R, hb, _⟩ := h.ledger.piece (A := [.proc p.toProcData]) ⟨rfl, fun _ => rfl⟩ hcode hslots
        exact (hb.reap_ends hp hz).mono fun _ _ => trivial
      · unfold Proc.reap
        rw [hp]
        dsimp only
        rw [if_neg hz]
        exact .ok trivial
  · exact .ok trivial

/-- Where an instruction was fetched, its first half can be read. -/
theorem Serving.fetched (h : Serving E pool s i p t R)
    (hf : (Sv39.access s.phys.mem s.hart.satp pc .fetch .user false).isSome) : Usable s.phys.mem t [] pc := by
  obtain ⟨pa, hpa⟩ := Option.isSome_iff_exists.mp hf
  rw [h.satp] at hpa
  have hlaid := h.caller.laid
  obtain ⟨e, hl, _, _, hslot, _⟩ := hlaid.user_access h.caller.held hpa
  have hlow := hlaid.user_low h.caller.held hpa
  obtain ⟨f, perm, hal, hleaf⟩ := (hlaid.fits _ h.caller.held _ rfl).leaves _ hlow hslot e hl
  obtain ⟨hp, hu, hr, _⟩ := hal.bits
  exact ⟨hlow, hslot, e, f, perm, hl, hleaf, hp, hu, hr, fun _ hb => by cases hb⟩

theorem Vm.Usable.next (h : Usable m t bits va) (he : va % 2 = 0) : Usable m t bits (va + 1) := by
  have hpage : (va + 1) / 4096 = va / 4096 := by omega
  have hlow := h.low
  have hslot := h.slot
  unfold vaMax at hlow
  rw [vpn_two] at hslot
  refine ⟨by unfold vaMax; omega, ?_, ?_⟩
  · rw [vpn_two, ← hslot]
    have : (va + 1) / 1073741824 = va / 1073741824 := by omega
    rw [this]
  · rw [look_page hpage]
    exact h.leaf

end Osmium
