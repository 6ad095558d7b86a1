import Osmium.Proofs.Isolation

namespace Osmium
open Lib Vm Control

variable {T : Type} {E : Env} {pool : PagePool E.allocStart} {s s' : Sys T}

/-- A root table that somebody still has. -/
def LiveRoot (s : Sys T) (r : Nat) : Prop := r = s.kernelRoot ∨ r ∈ userRoots s ++ building s

theorem userRoots_mem (hp : s.proc i = some p) (ht : p.userTable = some t) : t ∈ userRoots s := by
  obtain ⟨L, hL, _⟩ := procs_split hp
  exact List.mem_filterMap.mpr ⟨p, hL.mem_iff.mpr List.mem_cons_self, ht⟩

theorem building_mem (hx : x ∈ s.hart.code) (ht : t ∈ x.builds) : t ∈ building s :=
  List.mem_flatMap.mpr ⟨_, List.mem_cons_self, List.mem_flatMap.mpr ⟨x, hx, ht⟩⟩

namespace Sane

theorem page_live (h : Sane E pool lost s) (hp : s.proc i = some p) : LiveRoot s p.pageTable := by
  have hpage := (h.sound hp).page
  cases ht : p.userTable with
  | none =>
    rw [ht] at hpage
    exact .inl hpage
  | some t =>
    rw [ht] at hpage
    rw [show p.pageTable = t from hpage]
    exact .inr (List.mem_append_left _ (userRoots_mem hp ht))

/-- Pages of live tables are not on the free list. -/
theorem live_kept (h : Sane E pool lost s) : ∃ free, Chain (load64 s.phys.mem) s.phys.head free ∧
    s.phys.freePages = free.length ∧ ∀ r, LiveRoot s r → r ∉ free := by
  obtain ⟨free, hchain, hcount, hperm⟩ := h.pages_held
  refine ⟨free, hchain, hcount, fun r hr hin => ?_⟩
  have hnodup := hperm.nodup_iff.mpr pool.nodup
  refine (List.nodup_append.mp hnodup).2.2 r hin r ?_ rfl
  rcases hr with rfl | hr
  · exact List.mem_append_left _ (root_mem ..)
  · exact List.mem_append_right _ (List.mem_flatMap.mpr ⟨r, hr, root_owned _ _⟩)

/-- The active table is a live one. -/
theorem satp_live (h : Sane E pool lost s) : LiveRoot s s.hart.satp := by
  obtain ⟨S, lvl, top, _, _, hplace, hcode⟩ := h.control
  cases S with
  | thread =>
    obtain ⟨j, q, hat, _, _, hsat⟩ := hplace
    rw [hsat]
    exact h.page_live hat.here
  | parted dead =>
    obtain ⟨j, q, hat, _, _, _, hsat⟩ := hplace
    rw [hsat]
    exact h.page_live hat.here
  | user =>
    obtain ⟨j, q, hat, _, _, _, _, hsat⟩ := hplace
    rw [hsat]
    exact h.page_live hat.here
  | moving old new =>
    obtain ⟨j, q, hat, _, _, hsat, _⟩ := hplace
    rw [hsat]
    cases old with
    | none => exact .inl rfl
    | some t =>
      exact .inr (List.mem_append_right _
        (building_mem ((hcode.moving_switch rfl).2 t rfl) List.mem_cons_self))
  | boot | reaping _ | scanned => exact .inl hplace.2.2.1
  | picked => exact .inl hplace.2.2.2.1
  | ready =>
    obtain ⟨_, _, _, p, hp, _, hsat⟩ := hplace
    rw [hsat]
    exact h.page_live hp
  | returned =>
    obtain ⟨_, i, p, _, _, hp, _, hsat⟩ := hplace
    rw [hsat]
    exact h.page_live hp
  | restored => exact .inl hplace.2.1

/-- A table under construction belongs to no process. -/
theorem building_apart (h : Sane E pool lost s) (hb : t ∈ building s) :
    t ≠ s.kernelRoot ∧ t ∉ userRoots s := by
  have hnodup := h.pages_nodup
  rw [List.flatMap_append] at hnodup
  obtain ⟨_, hrest, hkernel⟩ := List.nodup_append.mp hnodup
  have hin : t ∈ (building s).flatMap (owned s.phys.mem) :=
    List.mem_flatMap.mpr ⟨t, hb, root_owned _ _⟩
  refine ⟨fun ht => ?_, fun ht => ?_⟩
  · exact hkernel _ (root_mem ..) t (List.mem_append_right _ hin) ht.symm
  · exact (List.nodup_append.mp hrest).2.2 t (List.mem_flatMap.mpr ⟨t, ht, root_owned _ _⟩) t hin rfl

theorem user_root_ne (h : Sane E pool lost s) (hp : s.proc i = some p) (ht : p.userTable = some t) :
    t ≠ s.kernelRoot := by
  intro he
  refine (List.nodup_append.mp h.pages_nodup).2.2 _ (root_mem ..) t ?_ he.symm
  exact List.mem_flatMap.mpr ⟨t, List.mem_append_left _ (userRoots_mem hp ht), root_owned _ _⟩

end Sane
/-- No process refers to a table. -/
def Unreferenced (s : Sys T) (keep : Nat → Prop) (t : Nat) : Prop :=
  ∀ j q, keep j → s.proc j = some q → q.pageTable ≠ t ∧ q.userTable ≠ some t

theorem Sane.unreferenced (h : Sane E pool lost s) (hk : t ≠ s.kernelRoot)
    (hu : ∀ j q, keep j → s.proc j = some q → q.userTable ≠ some t) : Unreferenced s keep t := by
  intro j q hj hq
  refine ⟨fun hp => ?_, hu j q hj hq⟩
  have hpage := (h.sound hq).page
  rw [hp] at hpage
  cases ht : q.userTable with
  | none =>
    rw [ht] at hpage
    exact hk hpage
  | some t' =>
    rw [ht] at hpage
    obtain rfl : t = t' := hpage
    exact hu j q hj hq ht

theorem Control.Holds.resting (h : Holds S lvl top s) (hc : s.current = none) :
    s.hart.satp = s.kernelRoot := by
  obtain ⟨_, _, hplace, _⟩ := h
  cases S with
  | thread | parted _ | moving _ _ | user =>
    obtain ⟨j, q, hat, _⟩ := hplace
    rw [hat.current] at hc
    cases hc
  | boot | reaping _ | scanned => exact hplace.2.2.1
  | picked => exact hplace.2.2.2.1
  | ready =>
    rw [hplace.2.2.1] at hc
    cases hc
  | returned =>
    obtain ⟨_, i, p, _, hcur, _⟩ := hplace
    rw [hcur] at hc
    cases hc
  | restored => exact hplace.2.1

/-- The stack below the running code is the current process's. -/
theorem Control.Holds.on_stack (h : Holds S lvl top s) (hstack : s.hart.stack = .kernel top') :
    ∃ i p, s.currentProc = some (i, p) ∧ p.kstackTop = top' := by
  obtain ⟨_, _, hplace, _⟩ := h
  cases S with
  | thread =>
    obtain ⟨j, q, hat, _, ⟨h1, h2, _⟩, _⟩ := hplace
    rw [h2] at hstack
    exact ⟨j, q, Sys.currentProc_some hat.current hat.here, h1.trans (Stack.kernel.inj hstack)⟩
  | parted =>
    obtain ⟨j, q, hat, _, _, ⟨h1, h2, _⟩, _⟩ := hplace
    rw [h2] at hstack
    exact ⟨j, q, Sys.currentProc_some hat.current hat.here, h1.trans (Stack.kernel.inj hstack)⟩
  | moving =>
    obtain ⟨j, q, hat, _, ⟨h1, h2, _⟩, _⟩ := hplace
    rw [h2] at hstack
    exact ⟨j, q, Sys.currentProc_some hat.current hat.here, h1.trans (Stack.kernel.inj hstack)⟩
  | user =>
    obtain ⟨j, q, hat, _, _, h2, _⟩ := hplace
    rw [h2] at hstack
    cases hstack
  | _ =>
    rw [hplace.1.stack] at hstack
    cases hstack

theorem Sane.stack_held (h : Sane E pool lost s) (hp : s.proc i = some p) :
    p.kstack < p.kstackTop ∧ p.kstackTop ≤ p.kstack + kstackSize ∧
      ∃ live, Heap.Carries E.toLayout s.phys.mem s.heap live ∧ ⟨p.kstack, kstackSize⟩ ∈ live := by
  have htop := (h.sound hp).top
  refine ⟨?_, ?_, _, h.ledger.owns.heap, ?_⟩
  · rw [htop]
    unfold kstackSize
    omega
  · rw [htop]
    exact Nat.div_mul_le_self _ _
  · exact List.mem_append_left _ (List.mem_flatMap.mpr
      ⟨_, List.mem_append_right _ (Sane.in_stock hp), List.mem_cons_self⟩)

/-- In every state the active table is one that somebody has, and not on the free
list; a table is freed only when it is neither active nor any process's; and the
hart runs on the stack of the current process, which the heap has not got back. -/
theorem active_kept (h : Reachable E reserved s) :
    (∃ free, Chain (load64 s.phys.mem) s.phys.head free ∧ s.phys.freePages = free.length ∧
      s.hart.satp ∉ free ∧ s.kernelRoot ∉ free ∧ ∀ i p, s.proc i = some p → p.pageTable ∉ free) ∧
    (s.current = none → s.hart.satp = s.kernelRoot) ∧
    (∀ i p, s.currentProc = some (i, p) → s.hart.stack ≠ .boot →
      (∀ r, .switchTo r ∉ s.hart.code) → s.hart.satp = p.pageTable) ∧
    (∀ t k, s.hart.code = .freeUserTable t :: k →
      s.hart.satp ≠ t ∧ Unreferenced s (fun _ => True) t) ∧
    (∀ i k p t, s.hart.code = .reap i :: k → s.proc i = some p → p.userTable = some t →
      s.hart.satp ≠ t ∧ Unreferenced s (· ≠ i) t) ∧
    (∀ top, s.hart.stack = .kernel top → ∃ i p live, s.currentProc = some (i, p) ∧
      top = p.kstackTop ∧ p.kstack < top ∧ top ≤ p.kstack + kstackSize ∧
      Heap.Carries E.toLayout s.phys.mem s.heap live ∧ ⟨p.kstack, kstackSize⟩ ∈ live) := by
  obtain ⟨res, lost, _, hs⟩ := reachable_sane h
  obtain ⟨S, lvl, top, hh⟩ := hs.control
  refine ⟨?_, ?_, ?_, ?_, ?_, ?_⟩
  · obtain ⟨free, hchain, hcount, hlive⟩ := hs.live_kept
    exact ⟨free, hchain, hcount, hlive _ hs.satp_live, hlive _ (.inl rfl),
      fun i p hp => hlive _ (hs.page_live hp)⟩
  · exact hh.resting
  · exact fun i p => hs.satp_page
  · intro t k hcode
    have hb : t ∈ building s := building_mem (x := .freeUserTable t) (by rw [hcode]; exact List.mem_cons_self)
      List.mem_cons_self
    obtain ⟨hk, hu⟩ := hs.building_apart hb
    have hun : Unreferenced s (fun _ => True) t :=
      hs.unreferenced hk fun j q _ hq ht => hu (userRoots_mem hq ht)
    refine ⟨?_, hun⟩
    obtain ⟨rfl, _⟩ := hh.leads hcode
    obtain ⟨j, q, hat, _, _, hsat⟩ := hh.place
    rw [hsat]
    exact (hun j q trivial hat.here).1
  · intro i k p t hcode hp ht
    have hk := hs.user_root_ne hp ht
    rw [(hh.at_reap hcode).2.1]
    refine ⟨hk.symm, hs.unreferenced hk fun j q hj hq hu => ?_⟩
    exact hs.owned_apart hp hq hj ht hu (root_owned _ _) (root_owned _ _)
  · intro top' hstack
    obtain ⟨i, p, hc, rfl⟩ := hh.on_stack hstack
    obtain ⟨hlow, hhigh, live, hcar, hin⟩ := hs.stack_held (Sys.currentProc_eq hc).2
    exact ⟨i, p, live, hc, rfl, hlow, hhigh, hcar, hin⟩

/-- The first process in its program, on a table that is not free. -/
theorem active_kept_first : ∃ (s : Sys Nat) (d : ProcData), Reachable smallEnv none s ∧
    s.currentProc = some (0, Proc.seated d) ∧ s.hart.satp = d.pageTable ∧
    ∃ free, Chain (load64 s.phys.mem) s.phys.head free ∧ s.hart.satp ∉ free := by
  obtain ⟨s, d, e, hu⟩ := userland Nat
  obtain ⟨t, ht, _⟩ := hu.first.table
  have ha := hu.acts ht
  obtain ⟨⟨free, hchain, _, hsatp, _⟩, _, hpage, _⟩ := active_kept hu.reachable
  exact ⟨s, d, hu.reachable, ha.caller, hpage _ _ ha.caller ha.stack ha.settled, free, hchain, hsatp⟩

end Osmium
