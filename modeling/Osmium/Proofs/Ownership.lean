import Osmium.Proofs.Start

namespace Osmium
open Lib Vm Control

variable {T : Type} {E : Env} {pool : PagePool E.allocStart} {s s' : Sys T}

/-- The tables that a piece of code works on and that no process has, or no
process has any more. -/
def Instr.builds : Instr T → List Nat
  | .loadText _ t _ _ | .loadStack _ t _ | .spawnUser _ t | .execCommit _ t | .freeUserTable t => [t]
  | .publish d => d.userTable.toList
  | _ => []

/-- The root tables of the processes. -/
def userRoots (s : Sys T) : List Nat := s.procs.reduceOption.filterMap (fun p => p.userTable)

/-- The root tables that `spawn_user`, `fork` and `exec` have at work. -/
def building (s : Sys T) : List Nat := gather Instr.builds s

def rootsOf (E : Env) (as : List Asset) : List Nat := (as.flatMap (Asset.holdings E)).map Prod.fst

theorem rootsOf_append (E : Env) (as bs : List Asset) :
    rootsOf E (as ++ bs) = rootsOf E as ++ rootsOf E bs := by
  simp [rootsOf]

theorem rootsOf_block (E : Env) (lost : List Heap.Live) : rootsOf E (lost.map .block) = [] := by
  induction lost with
  | nil => rfl
  | cons a lost ih => exact ih

theorem rootsOf_proc (E : Env) (d : ProcData) : rootsOf E [.proc d] = d.userTable.toList := by
  cases h : d.userTable <;> simp [rootsOf, Asset.holdings, h]

theorem rootsOf_slots (E : Env) (s : Sys T) : rootsOf E (slots s) = userRoots s := by
  unfold slots userRoots
  induction s.procs.reduceOption with
  | nil => rfl
  | cons p ps ih =>
    rw [List.map_cons, List.map_cons, ← List.singleton_append, rootsOf_append, rootsOf_proc, ih]
    cases h : p.userTable <;> simp [h]

theorem rootsOf_carried (E : Env) (x : Instr T) : rootsOf E (carried E x) = x.builds := by
  cases x with
  | publish d => exact rootsOf_proc E d
  | getcharLoop r => cases r <;> rfl
  | getcharCheck r => cases r <;> rfl
  | gotChar r b => cases r <;> rfl
  | _ => rfl

theorem rootsOf_flatMap (E : Env) (xs : List α) (f : α → List Asset) :
    rootsOf E (xs.flatMap f) = xs.flatMap (fun x => rootsOf E (f x)) := by
  induction xs with
  | nil => rfl
  | cons x xs ih => rw [List.flatMap_cons, rootsOf_append, ih, List.flatMap_cons]

theorem rootsOf_gather (E : Env) (s : Sys T) : rootsOf E (gather (carried E) s) = building s := by
  unfold building gather
  simp only [rootsOf_flatMap, rootsOf_carried]

theorem rootsOf_stock (E : Env) (lost : List Heap.Live) (s : Sys T) :
    rootsOf E (lost.map .block ++ stock E s) = userRoots s ++ building s := by
  rw [rootsOf_append, rootsOf_block, stock, rootsOf_append, rootsOf_slots, rootsOf_gather]
  rfl

/-- All pages somebody holds, owner by owner. -/
theorem claimed_roots (m : Mem) (kroot : Nat) (as : List Asset) :
    claimed m kroot (as.flatMap (Asset.holdings E)) =
      tabs 3 m kroot ++ (rootsOf E as).flatMap (owned m) := by
  unfold claimed rootsOf
  rw [List.flatMap_map]

theorem Sane.pages_held (h : Sane E pool lost s) :
    Pool pool s.phys (tabs 3 s.phys.mem s.kernelRoot ++
      (userRoots s ++ building s).flatMap (owned s.phys.mem)) := by
  rw [← rootsOf_stock E lost s, ← claimed_roots]
  exact h.ledger.owns.spaces.pool

/-- The pages that were seeded are, in every state, the free list, the tables of
the kernel, and for every process its root, its tables and its frames; while
`spawn_user`, `fork` or `exec` is at work, also what belongs to the table it has
in hand. Each page occurs once. -/
theorem page_ownership (h : Reachable E reserved s) :
    ∃ res free, Kalloc.reservedRange reserved = .ok res ∧ (Kalloc.seeds E.allocStart res).Nodup ∧
      Chain (load64 s.phys.mem) s.phys.head free ∧ s.phys.freePages = free.length ∧
      (free ++ tabs 3 s.phys.mem s.kernelRoot ++ (userRoots s).flatMap (owned s.phys.mem) ++
        (building s).flatMap (owned s.phys.mem)).Perm (Kalloc.seeds E.allocStart res) ∧
      (building s = [] →
        (free ++ tabs 3 s.phys.mem s.kernelRoot ++ (userRoots s).flatMap (owned s.phys.mem)).Perm
          (Kalloc.seeds E.allocStart res)) := by
  obtain ⟨res, lost, hres, hs⟩ := reachable_sane h
  obtain ⟨free, hchain, hcount, hperm⟩ := hs.pages_held
  rw [Kalloc.seedPool_pages, List.flatMap_append, ← List.append_assoc, ← List.append_assoc] at hperm
  refine ⟨res, free, hres, Kalloc.seedsFrom_nodup _ _ _, hchain, hcount, hperm, fun hb => ?_⟩
  rw [hb, List.flatMap_nil, List.append_nil] at hperm
  exact hperm

theorem Userland.building (h : Userland s d e) : building s = [] := by
  unfold Osmium.building gather codes
  rw [h.procs, h.hart, h.sched]
  rfl

theorem Userland.roots (h : Userland s d e) :
    ∃ t u, d.userTable = some t ∧ e.userTable = some u ∧ userRoots s = [t, u] := by
  obtain ⟨t, ht, _⟩ := h.first.table
  obtain ⟨u, hu, _⟩ := h.second.table
  refine ⟨t, u, ht, hu, ?_⟩
  unfold userRoots
  rw [h.procs]
  show [Proc.seated d, Proc.fresh e].filterMap (fun p : Process T => p.userTable) = _
  simp [Proc.seated, Proc.fresh, ht, hu]

/-- Two processes were spawned and the first one runs. -/
theorem page_ownership_two : ∃ s : Sys Nat, Reachable smallEnv none s ∧ (userRoots s).length = 2 ∧
    ∃ free, Chain (load64 s.phys.mem) s.phys.head free ∧
      (free ++ tabs 3 s.phys.mem s.kernelRoot ++ (userRoots s).flatMap (owned s.phys.mem)).Perm
        (Kalloc.seeds smallEnv.allocStart (0, 0)) := by
  obtain ⟨s, d, e, hu⟩ := userland Nat
  obtain ⟨t, u, _, _, hroots⟩ := hu.roots
  obtain ⟨res, free, hres, _, hchain, _, _, hperm⟩ := page_ownership hu.reachable
  obtain rfl := Except.ok.inj ((show Kalloc.reservedRange none = .ok (0, 0) from rfl).symm.trans hres)
  exact ⟨s, hu.reachable, by rw [hroots]; rfl, free, hchain, hperm hu.building⟩

/-- Permission bits of an entry. -/
def rights (e : Nat) : Nat := e &&& (pteR ||| pteW ||| pteX ||| pteU)

theorem Vm.Plan.Allows.rights {plan : Plan} (ha : plan.Allows va perm) (hl : Sv39.Leaf e f perm) :
    Osmium.rights e = perm := by
  have hflag : e &&& (pteR ||| pteW ||| pteX ||| pteU) = perm &&& (pteR ||| pteW ||| pteX ||| pteU) :=
    hl.flag ha.bits.1 (by decide) (by decide)
  unfold Osmium.rights
  rw [hflag]
  rcases ha with ⟨_, rfl⟩ | ⟨_, rfl⟩ <;> rfl

/-- Every table in use, with what is known of it. -/
def estate (E : Env) (lost : List Heap.Live) (s : Sys T) : List Holding :=
  (lost.map Asset.block ++ stock E s).flatMap (Asset.holdings E)

theorem holding_mem (hp : s.proc j = some p) (ht : p.userTable = some t) :
    (t, some (planOf E p.toProcData)) ∈ estate E lost s :=
  List.mem_flatMap.mpr ⟨_, List.mem_append_right _ (Sane.in_stock hp), by simp [Asset.holdings, ht]⟩

theorem Sane.spaces (h : Sane E pool lost s) : Spaces pool s.phys s.kernelRoot (estate E lost s) :=
  h.ledger.owns.spaces

/-- The address space of every process: text, stack and part of the heap in the
slot of its own, and the kernel's entries everywhere else. -/
theorem address_space_shape (h : Reachable E reserved s) (hp : s.proc j = some p)
    (ht : p.userTable = some t) :
    p.heapBase = userHeapBase ∧ userHeapBase ≤ p.heapBrk ∧ p.heapBrk ≤ userHeapMax ∧
    (∃ prog, p.image = some prog ∧ ∀ va < vaMax, vpn va 2 = userL2Index →
      (userText ≤ va → va < userText + Proc.npages E prog * pageSize →
        look va 2 s.phys.mem t ≠ none) ∧
      (userStackTop - pageSize ≤ va → va < userStackTop → look va 2 s.phys.mem t ≠ none) ∧
      ∀ e, look va 2 s.phys.mem t = some e →
        (userText ≤ va ∧ va < userText + Proc.npages E prog * pageSize ∧
          rights e = pteR ||| pteX ||| pteU) ∨
        ((userStackTop - pageSize ≤ va ∧ va < userStackTop ∨
          userHeapBase ≤ va ∧ va / pageSize * pageSize < p.heapBrk) ∧
          rights e = pteR ||| pteW ||| pteU)) ∧
    ∀ i < 512, i ≠ userL2Index → entry s.phys.mem t i = entry s.phys.mem s.kernelRoot i ∧
      ∀ va, vpn va 2 = i → ∀ e, look va 2 s.phys.mem t = some e → e &&& pteU = 0 := by
  obtain ⟨res, lost, _, hs⟩ := reachable_sane h
  have hsound := hs.sound hp
  have hin : _ ∈ estate E lost s := holding_mem hp ht
  obtain ⟨hbase, hlow, hhigh⟩ := hsound.heap (by simp [ht])
  obtain ⟨prog, himage⟩ := Option.ne_none_iff_exists'.mp (hsound.image (by simp [ht]))
  have hfit := hs.spaces.fits _ hin _ rfl
  have hroot := hs.spaces.roots _ hin
  have htext : (planOf E p.toProcData).text = Proc.npages E prog := by
    unfold planOf
    rw [himage]
    rfl
  refine ⟨hbase, hlow, hhigh, ⟨prog, himage, fun va hva hslot => ⟨?_, ?_, ?_⟩⟩, ?_⟩
  · intro h1 h2
    exact hfit.loaded va hva hslot (.inl ⟨h1, by rw [htext]; exact h2⟩)
  · intro h1 h2
    exact hfit.loaded va hva hslot (.inr ⟨rfl, h1, h2⟩)
  · intro e he
    obtain ⟨f, perm, hallow, hleaf⟩ := hfit.leaves va hva hslot e he
    have hr := hallow.rights hleaf
    rcases hallow with ⟨⟨h1, h2⟩, rfl⟩ | ⟨⟨_, h1, h2⟩ | ⟨h1, h2⟩, rfl⟩
    · exact .inl ⟨h1, by rw [htext] at h2; exact h2, hr⟩
    · exact .inr ⟨.inl ⟨h1, h2⟩, hr⟩
    · exact .inr ⟨.inr ⟨h1, h2⟩, hr⟩
  · intro i hi hne
    refine ⟨hroot.shares i hi hne, fun va hv e he => ?_⟩
    by_contra hu
    exact hne (hv.symm.trans (user_slot hroot hs.spaces.kernel he hu))

/-- The running process of the two has its whole shape. -/
theorem address_space_shape_first : ∃ (s : Sys Nat) (p : Process Nat) (t : Nat),
    Reachable smallEnv none s ∧ s.proc 0 = some p ∧ p.userTable = some t ∧
    p.heapBase = userHeapBase ∧ look userText 2 s.phys.mem t ≠ none := by
  obtain ⟨s, d, e, hu⟩ := userland Nat
  obtain ⟨t, ht, _⟩ := hu.first.table
  obtain ⟨hbase, _, _, ⟨prog, himage, hmap⟩, _⟩ := address_space_shape hu.reachable hu.proc_zero ht
  obtain rfl := Option.some.inj (himage.symm.trans hu.first.image)
  exact ⟨s, _, t, hu.reachable, hu.proc_zero, ht, hbase, (hmap userText (by decide) (by decide)).1 (by decide)
    (by decide)⟩

end Osmium
