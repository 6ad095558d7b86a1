import Osmium.Proofs.SyncRun
import Osmium.Lib.Fifo

namespace Osmium
open Lib Control Sync

variable {T : Type} {E : Env} {s s' : Sys T}

namespace Console

/-- The bytes that readers will get, in order. -/
def pending (q : Input) : List UInt8 :=
  (List.range (q.w - q.r)).map (fun k => q.buf ((q.r + k) % inputCap))

/-- The read index never overtakes the write index, which never laps it. -/
structure Ring (q : Input) : Prop where
  order : q.r ≤ q.w
  fits : q.w ≤ q.r + inputCap

theorem pending_length (q : Input) : (pending q).length = q.w - q.r := by
  unfold pending
  rw [List.length_map, List.length_range]

theorem pending_nil : pending q = [] ↔ q.w ≤ q.r := by
  rw [← List.length_eq_zero_iff, pending_length]
  omega

namespace Ring

theorem nonempty (h : Ring q) (hne : q.r ≠ q.w) : q.r < q.w := Nat.lt_of_le_of_ne h.order hne

theorem pop (h : Ring q) (hne : q.r ≠ q.w) : Ring { q with r := q.r + 1 } := by
  have hlt := h.nonempty hne
  have hfits := h.fits
  exact ⟨hlt, by dsimp only; omega⟩

theorem pending_pop (h : Ring q) (hne : q.r ≠ q.w) :
    pending q = q.buf (q.r % inputCap) :: pending { q with r := q.r + 1 } := by
  have hlt := h.nonempty hne
  unfold pending
  obtain ⟨d, hd⟩ : ∃ d, q.w - q.r = d + 1 := ⟨q.w - q.r - 1, by omega⟩
  have hd' : q.w - (q.r + 1) = d := by omega
  dsimp only
  rw [hd, hd', List.range_succ_eq_map, List.map_cons, List.map_map, Nat.add_zero]
  congr 1
  refine List.map_congr_left fun k _ => ?_
  rw [Function.comp_apply, Nat.succ_eq_add_one, Nat.add_right_comm, Nat.add_assoc]

end Ring

/-- A byte as the ring stores it. -/
def normal (byte : UInt8) : UInt8 := if byte = 13 then 10 else byte

theorem ringPush_spec (h : Ring s.input) (byte : UInt8) :
    Ring (ringPush s byte).input ∧ pending (ringPush s byte).input =
      if (pending s.input).length < inputCap then pending s.input ++ [normal byte]
      else pending s.input := by
  obtain ⟨horder, hfits⟩ := h
  rw [pending_length]
  unfold ringPush
  dsimp only
  by_cases hroom : s.input.w - s.input.r < inputCap
  · rw [if_pos hroom, if_pos hroom]
    refine ⟨⟨by dsimp only; omega, by dsimp only; omega⟩, ?_⟩
    unfold pending
    dsimp only
    rw [Nat.succ_sub horder, List.range_succ, List.map_append]
    congr 1
    · -- the slots of the bytes already there are others than the new one's
      refine List.map_congr_left fun k hk => if_neg fun he => ?_
      have hk := List.mem_range.mp hk
      unfold inputCap at hroom he
      omega
    · rw [List.map_singleton, Nat.add_sub_cancel' horder, if_pos rfl]
      rfl
  · rw [if_neg hroom, if_neg hroom]
    exact ⟨⟨horder, hfits⟩, rfl⟩

theorem getchar_empty (he : s.input.r = s.input.w) : getchar s = (none, s) := by
  unfold getchar
  exact if_pos he

theorem getchar_some (hne : s.input.r ≠ s.input.w) :
    getchar s = (some (s.input.buf (s.input.r % inputCap)),
      { s with input := { s.input with r := s.input.r + 1 } }) := by
  unfold getchar
  exact if_neg hne

theorem getchar_spec (h : Ring s.input) : Ring (getchar s).2.input ∧
    pending (getchar s).2.input = (pending s.input).tail ∧
    (getchar s).1 = (pending s.input).head? := by
  by_cases he : s.input.r = s.input.w
  · rw [getchar_empty he, pending_nil.mpr (Nat.le_of_eq he.symm)]
    exact ⟨h, rfl, rfl⟩
  · rw [getchar_some he, h.pending_pop he]
    exact ⟨h.pop he, rfl, rfl⟩

/-- The two calls: the interrupt's `on_input`, and `getchar`. -/
def ringCall (s : Sys T) : Fifo.Op UInt8 → Sys T × Option UInt8
  | .push byte => (ringPush s byte, none)
  | .pop => ((getchar s).2, (getchar s).1)

theorem ringCall_refines (s : Sys T) (op : Fifo.Op UInt8) (h : Ring s.input) :
    Ring (ringCall s op).1.input ∧
      pending (ringCall s op).1.input = (Fifo.step inputCap (pending s.input) (op.map normal)).1 ∧
      (ringCall s op).2 = (Fifo.step inputCap (pending s.input) (op.map normal)).2 := by
  cases op with
  | push byte =>
    obtain ⟨hring, hpend⟩ := ringPush_spec h byte
    exact ⟨hring, hpend, rfl⟩
  | pop => exact getchar_spec h

theorem calls_refine (ops : List (Fifo.Op UInt8)) (h : Ring s.input) :
    Ring (outcome ringCall s ops).1.input ∧
      pending (outcome ringCall s ops).1.input =
        (outcome (Fifo.step inputCap) (pending s.input) (ops.map (.map normal))).1 ∧
      (outcome ringCall s ops).2 =
        (outcome (Fifo.step inputCap) (pending s.input) (ops.map (.map normal))).2 :=
  outcome_refines (fun s : Sys T => Ring s.input) (fun s => pending s.input) (Fifo.Op.map normal)
    ringCall_refines ops h

/-- Any series of calls on the ring answers as a queue of 256 bytes does, and
leaves what that queue holds: every byte it took comes out once, in order, or is
still there. -/
theorem ring_refines_queue (h : Ring s.input) (ops : List (Fifo.Op UInt8)) :
    (outcome ringCall s ops).2 =
      (outcome (Fifo.step 256) (pending s.input) (ops.map (.map normal))).2 ∧
    pending (outcome ringCall s ops).1.input =
      (outcome (Fifo.step 256) (pending s.input) (ops.map (.map normal))).1 ∧
    Ring (outcome ringCall s ops).1.input ∧
    pending s.input ++ Fifo.accepted 256 (pending s.input) (ops.map (.map normal)) =
      (outcome ringCall s ops).2.reduceOption ++ pending (outcome ringCall s ops).1.input := by
  obtain ⟨hring, hpend, hout⟩ := calls_refine ops h
  refine ⟨hout, hpend, hring, ?_⟩
  rw [hout, hpend]
  exact Fifo.conservation _

/-- From the empty ring: a return is read as a newline, and then nothing is left. -/
theorem ring_refines_queue_line : ∃ s : Sys Nat, Ring s.input ∧
    (outcome ringCall s [.push 104, .push 13, .pop, .pop, .pop]).2 =
      [none, none, some 104, some 10, none] := by
  obtain ⟨s, _⟩ := userland Nat
  have h : Ring { s with input := ⟨fun _ => 0, 0, 0⟩ }.input := ⟨Nat.le_refl 0, Nat.zero_le _⟩
  exact ⟨_, h, (ring_refines_queue h _).1⟩

end Console

open Console

theorem Syscall.drain_spec (h : Ring s.input) (n : Nat) :
    Ring (drain s n).2.input ∧ (drain s n).1 = (pending s.input).take n ∧
      pending (drain s n).2.input = (pending s.input).drop n := by
  induction n generalizing s with
  | zero => exact ⟨h, rfl, rfl⟩
  | succ n ih =>
    by_cases he : s.input.r = s.input.w
    · have hnil : pending s.input = [] := pending_nil.mpr (Nat.le_of_eq he.symm)
      unfold drain
      rw [getchar_empty he, hnil]
      exact ⟨h, rfl, rfl⟩
    · obtain ⟨h1, h2, h3⟩ := ih (s := { s with input := { s.input with r := s.input.r + 1 } }) (h.pop he)
      unfold drain
      rw [getchar_some he, h.pending_pop he]
      exact ⟨h1, congrArg _ h2, h3⟩

theorem Syscall.drain_calls (s : Sys T) (n : Nat) :
    ∃ ops, (drain s n).2 = (outcome ringCall s ops).1 := by
  induction n generalizing s with
  | zero => exact ⟨[], rfl⟩
  | succ n ih =>
    by_cases he : s.input.r = s.input.w
    · unfold drain
      rw [getchar_empty he]
      exact ⟨[], rfl⟩
    · obtain ⟨ops, hops⟩ := ih (getchar s).2
      have hnext : (drain s (n + 1)).2 = (drain (getchar s).2 n).2 := by
        conv_lhs => unfold drain
        rw [getchar_some he]
      exact ⟨.pop :: ops, hnext.trans hops⟩

/-- Behind its first byte `SYS_READ` takes what it drains. -/
theorem Syscall.readRest_input (run : readRest s f ptr cap buf byte = .ok s') :
    s'.input = (drain s (cap - 1)).2.input := by
  simp only [readRest, bind_ok, Except.ok.injEq] at run
  obtain ⟨⟨n, s₁⟩, hc, s₂, hd, rfl⟩ := run
  show s₂.input = _
  rw [OnlyMem.dealloc hd, OnlyMem.copyOut hc]

theorem Syscall.drain_empty (he : s.input.r = s.input.w) (n : Nat) : drain s n = ([], s) := by
  cases n with
  | zero => rfl
  | succ n =>
    unfold drain
    rw [getchar_empty he]

/-- The kernel touches the ring by calls alone. -/
theorem exec_calls (hcode : s.hart.code = i :: k) (run : exec E junk s i k = .ok s') :
    ∃ ops, s'.input = (outcome ringCall s ops).1.input := by
  by_cases hr : i.reads = false
  · exact ⟨[], (exec_turns hcode run).input hr⟩
  · cases i with
    | ringPush byte =>
      obtain rfl := Except.ok.inj run
      exact ⟨[.push byte], rfl⟩
    | getcharCheck r =>
      obtain rfl := Except.ok.inj run
      refine ⟨[.pop], ?_⟩
      show _ = (getchar s).2.input
      rcases getcharCheck_eq s r k with ⟨he, hc⟩ | ⟨hne, hc⟩
      · rw [hc, getchar_empty he]
        rfl
      · rw [hc, getchar_some hne]
        rfl
    | gotChar r byte =>
      cases r with
      | kernel => exact absurd rfl hr
      | user f ptr cap buf =>
        obtain ⟨ops, hops⟩ := Syscall.drain_calls s (cap - 1)
        exact ⟨ops, (Syscall.readRest_input run).trans (congrArg Sys.input hops)⟩
    | _ => exact absurd rfl hr

theorem step_calls (move : Step E s s') : ∃ ops, s'.input = (outcome ringCall s ops).1.input := by
  cases move with
  | exec junk code run => exact exec_calls code run
  | _ => exact ⟨[], rfl⟩

theorem reachable_ring (h : Reachable E reserved s) : Ring s.input := by
  refine h.invariant (I := fun s => Ring s.input) (fun m regs s run => ?_)
    fun S lvl top s s' _ move hr => ?_
  · rw [(boot_untouched run).input]
    exact ⟨Nat.le_refl _, Nat.zero_le _⟩
  · obtain ⟨ops, hops⟩ := step_calls move
    rw [hops]
    exact (calls_refine ops hr).1

/-- A read from U-mode asks for at least one byte and for no more than its
kernel buffer holds. -/
def Reader.sized : Reader → Bool
  | .kernel => true
  | .user _ _ cap _ => 0 < cap && cap ≤ Syscall.writeMax

namespace Instr

def sized : Instr T → Bool
  | .getcharLoop r | .getcharCheck r | .gotChar r _ => r.sized
  | _ => true

theorem op_sized (E : Env) (op : Op T) : (op.code E).all sized = true := by
  cases op <;> rfl

theorem irq_sized (E : Env) (irq : Irq) : (irq.code (T := T) E).all sized = true := by
  cases irq with
  | timer => rfl
  | uart bytes =>
    induction bytes with
    | nil => rfl
    | cons b bytes ih => exact ih

end Instr

theorem Follows.sized (h : Follows E s i k c) (hi : (i :: k).all Instr.sized = true) :
    c.all Instr.sized = true := by
  have hk : k.all Instr.sized = true := by
    rw [List.all_cons, Bool.and_eq_true] at hi
    exact hi.2
  cases h with
  | trapCall calls =>
    cases calls with
    | read buf call pos =>
      simp only [List.all_cons, List.all_nil, Instr.sized, Reader.sized, Bool.and_true,
        Bool.and_eq_true, decide_eq_true_eq]
      exact ⟨Nat.lt_min.mpr ⟨Nat.pos_of_ne_zero pos, by decide⟩, Nat.min_le_right _ _⟩
    | _ => rfl
  | fetchEntry =>
    rename_i p _
    cases p.entry <;> rfl
  | execCommit =>
    rename_i p _ _ _
    unfold Proc.execRest
    cases p.userTable <;> rfl
  | _ => first | exact hi | exact hk | rfl

/-- A thread's reads are sized. -/
theorem reachable_sized (h : Reachable E reserved s) (hp : s.proc j = some p) :
    (codeOf s p).all Instr.sized = true := by
  refine h.threads (Q := fun c => c.all Instr.sized = true) rfl (fun s c c' hadv hc => ?_) j p hp
  cases hadv with
  | run follows => exact follows.sized hc
  | call op =>
    rw [List.all_append, Instr.op_sized]
    rfl
  | interrupt irq on =>
    rw [List.all_append, Instr.irq_sized]
    exact hc
  | userInterrupt irq =>
    rw [List.all_append, Instr.irq_sized]
    rfl
  | _ => rfl

end Osmium
