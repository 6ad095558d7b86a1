import Osmium.Proofs.SyncRun
import Osmium.Lib.RoundRobin

namespace Osmium
open Lib Proc

variable {T : Type} {E : Env} {s s' : Sys T}

theorem Proc.isRunnable_lt (h : isRunnable s i = true) : i < s.procs.length := by
  unfold isRunnable Sys.proc at h
  by_contra hge
  rw [List.getElem?_eq_none (Nat.le_of_not_lt hge)] at h
  cases h

/-- Only the scheduler moves `next_slot`, and the table never shrinks. -/
theorem step_next (move : Step E s s') (busy : ∀ k, s.hart.code ≠ .pick :: k) :
    s'.nextSlot = s.nextSlot ∧ s.procs.length ≤ s'.procs.length := by
  cases move with
  | exec junk code run =>
    have ht := exec_turns code run
    refine ⟨ht.next fun he => ?_, ht.slots.grows⟩
    rw [he] at code
    exact busy _ code
  | _ => exact ⟨rfl, Nat.le_refl _⟩

theorem Proc.pick_next (run : pick s = .ok s') (picked : scan s = some j) :
    s'.nextSlot = j + 1 ∧ s'.current = some j ∧ s'.procs.length = s.procs.length ∧
      isRunnable s j = true := by
  rcases pick_eq run with ⟨hnone, _⟩ | ⟨j', p, hj, hp, hstate, rfl⟩
  · rw [hnone] at picked
    cases picked
  · obtain rfl := Option.some.inj (hj.symm.trans picked)
    refine ⟨rfl, rfl, length_setProc _ _ _, ?_⟩
    unfold isRunnable
    rw [hp]
    exact decide_eq_true hstate

/-- `next_slot` may be the length of the table, but is never beyond it. -/
theorem reachable_next (h : Reachable E reserved s) : s.nextSlot ≤ s.procs.length := by
  refine h.invariant (I := fun s => s.nextSlot ≤ s.procs.length) (fun m regs s run => ?_)
    fun S lvl top s s' _ move hn => ?_
  · simp only [kmain, bind_ok, Except.ok.injEq] at run
    obtain ⟨_, _, _, _, _, _, _, _, _, _, _, _, _, _, rfl⟩ := run
    exact Nat.zero_le _
  · by_cases hp : ∃ k, s.hart.code = .pick :: k
    · obtain ⟨k, hk⟩ := hp
      cases move with
      | exec junk code run =>
        obtain ⟨rfl, rfl⟩ := List.cons.inj (code.symm.trans hk)
        cases hscan : scan s with
        | none =>
          rcases pick_eq run with ⟨_, rfl⟩ | ⟨j, _, hj, _⟩
          · exact hn
          · rw [hscan] at hj
            cases hj
        | some j =>
          obtain ⟨hnext, _, hlen, hr⟩ := pick_next run hscan
          rw [hnext, hlen]
          exact isRunnable_lt hr
      | _ => exact hn
    · obtain ⟨hnext, hlen⟩ := step_next move fun k hk => hp ⟨k, hk⟩
      rw [hnext]
      exact Nat.le_trans hn hlen

theorem Proc.pick_total (h : isRunnable s i = true) (hn : s.nextSlot ≤ s.procs.length) :
    ∃ j s', scan s = some j ∧ pick s = .ok s' := by
  obtain ⟨j, hj⟩ := RoundRobin.scan_total hn (isRunnable_lt h) h
  have hscan : scan s = some j := hj
  obtain ⟨p, hp, _⟩ := scan_runnable hscan
  have hrun : ∃ s', pick s = .ok s' := by
    unfold pick
    rw [hscan]
    dsimp only
    rw [hp]
    exact ⟨_, rfl⟩
  obtain ⟨s', hrun⟩ := hrun
  exact ⟨j, s', hscan, hrun⟩

/-- A stretch of a run in which slot `i` is runnable whenever the scheduler picks
a thread from a table of at most `N` slots, and `n` times another one is picked.
Between the picks anything may happen. -/
inductive Passed (E : Env) (i N : Nat) (s : Sys T) : Sys T → Nat → Prop where
  | start : Passed E i N s s 0
  | other (before : Passed E i N s s₁ n) (move : Step E s₁ s₂)
      (busy : ∀ k, s₁.hart.code ≠ .pick :: k) : Passed E i N s s₂ n
  | pick (before : Passed E i N s s₁ n) (junk : Regs) (code : s₁.hart.code = .pick :: k)
      (run : exec E junk s₁ .pick k = .ok s₂) (size : s₁.procs.length ≤ N)
      (ready : isRunnable s₁ i = true) (picked : scan s₁ = some j) (ne : j ≠ i) :
      Passed E i N s s₂ (n + 1)

namespace Passed

theorem reachable (h : Passed E i N s s' n) (hr : Reachable E reserved s) :
    Reachable E reserved s' := by
  induction h with
  | start => exact hr
  | other _ move _ ih => exact ih.step move
  | pick _ junk code run _ _ _ _ ih => exact ih.step (.exec junk code run)

/-- Every pick of another slot uses up one of the turns before slot `i`'s. -/
theorem count (h : Passed E i N s s' n) (hr : Reachable E reserved s) :
    n + RoundRobin.wait N i s'.nextSlot ≤ RoundRobin.wait N i s.nextSlot ∧ (0 < n → i < N) := by
  induction h with
  | start => exact ⟨Nat.le_of_eq (Nat.zero_add _), fun h => absurd h (Nat.lt_irrefl 0)⟩
  | other before move busy ih =>
    rw [(step_next move busy).1]
    exact ih
  | pick before junk code run size ready picked ne ih =>
    have hi := isRunnable_lt ready
    have hlt := RoundRobin.wait_pick (reachable_next (before.reachable hr)) size hi ready picked ne
    rw [(pick_next run picked).1]
    exact ⟨by omega, fun _ => Nat.lt_of_lt_of_le hi size⟩

theorem bound (h : Passed E i N s s' n) (hr : Reachable E reserved s) : n ≤ N - 1 := by
  obtain ⟨hcount, hsome⟩ := h.count hr
  by_cases hn : n = 0
  · omega
  · have hle := RoundRobin.wait_le (hsome (Nat.pos_of_ne_zero hn)) s.nextSlot
    omega

end Passed

/-- From any state on, a slot that is runnable at every pick is passed over at
most `N - 1` times, and then it is picked; and the scan never comes back empty
while some slot is runnable. -/
theorem round_robin_bypass (hr : Reachable E reserved s) (i N : Nat) :
    (∀ s' n, Passed E i N s s' n → n ≤ N - 1 ∧
      (n = N - 1 → ∀ k, s'.hart.code = .pick :: k → s'.procs.length ≤ N →
        isRunnable s' i = true → scan s' = some i)) ∧
    (isRunnable s i = true → ∃ j s', scan s = some j ∧ isRunnable s j = true ∧
      pick s = .ok s' ∧ s'.current = some j) := by
  refine ⟨fun s' n h => ⟨h.bound hr, ?_⟩, fun hi => ?_⟩
  · rintro rfl k hcode hsize hready
    have hnext := reachable_next (h.reachable hr)
    obtain ⟨j, s'', hscan, hrun⟩ := pick_total hready hnext
    by_contra hne
    have hj : j ≠ i := fun he => hne (he ▸ hscan)
    -- one more pick of another slot would be one too many
    have hmore := (Passed.pick h (fun _ => 0) hcode hrun hsize hready hscan hj).bound hr
    have hpos := isRunnable_lt hready
    omega
  · obtain ⟨j, s', hscan, hrun⟩ := pick_total hi (reachable_next hr)
    obtain ⟨_, hcur, _, hj⟩ := pick_next hrun hscan
    exact ⟨j, s', hscan, hj, hrun, hcur⟩

/-- The shell behind the first program, with both in the table. -/
theorem round_robin_bypass_shell : ∃ s : Sys Nat, Reachable smallEnv none s ∧
    isRunnable s 1 = true ∧ (∀ s' n, Passed smallEnv 1 2 s s' n → n ≤ 1) ∧
    ∃ j s', scan s = some j ∧ pick s = .ok s' ∧ s'.current = some j := by
  obtain ⟨s, d, e, hu⟩ := userland Nat
  have hready : isRunnable s 1 = true := by
    unfold isRunnable Sys.proc
    rw [hu.procs]
    rfl
  obtain ⟨hpass, hpick⟩ := round_robin_bypass hu.reachable 1 2
  obtain ⟨j, s', hscan, _, hrun, hcur⟩ := hpick hready
  exact ⟨s, hu.reachable, hready, fun s' n h => (hpass s' n h).1, j, s', hscan, hrun, hcur⟩

end Osmium
