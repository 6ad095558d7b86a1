import Osmium.Proofs.Loader
import Osmium.Proofs.Translation
import Osmium.Proofs.UserCopy
import Osmium.Proofs.UserMode

namespace Osmium
open Lib Vm

variable {T : Type} {E : Env} {pool : PagePool E.allocStart} {s s' : Sys T}

theorem Vm.translate_congr {P P' : Phys} (h : look va 2 P'.mem r = look va 2 P.mem r) :
    translate P' r va = translate P r va := by
  by_cases hva : va < vaMax
  · rw [translate_eq _ _ _ hva, translate_eq _ _ _ hva, lookup, lookup, h]
  · unfold translate walk
    rw [if_neg hva, if_neg hva]

/-- Tables that are left alone translate as before. -/
theorem Leaves.look_eq (h : Leaves E as s s')
    (hlaid : Laid s.phys.mem s.kernelRoot (as.flatMap (Asset.holdings E)))
    (hr : r = s.kernelRoot ∨ r ∈ rootsOf E as) (va : Nat) :
    look va 2 s'.phys.mem r = look va 2 s.phys.mem r := by
  have hkernel : ∀ va, look va 2 s'.phys.mem s.kernelRoot = look va 2 s.phys.mem s.kernelRoot :=
    fun va => look_congr (fun q hq => h.held q (List.mem_append_left _ hq))
  rcases hr with rfl | hr
  · exact hkernel va
  obtain ⟨x, hx, rfl⟩ := List.mem_map.mp hr
  have htabs : ∀ q ∈ userTabs s.phys.mem x.1, SameOn s.phys.mem s'.phys.mem q 4096 := fun q hq =>
    h.held q (tables_claimed (List.mem_append_right _ (List.mem_flatMap.mpr ⟨x, hx, hq⟩)))
  by_cases hu : vpn va 2 = userL2Index
  · exact userLook_congr htabs hu
  · have hk : SameOn s.phys.mem s'.phys.mem s.kernelRoot 4096 :=
      h.held _ (tables_claimed (kroot_tables _ _ _))
    rw [look_shared ((hlaid.roots x hx).congr hk htabs) hu, look_shared (hlaid.roots x hx) hu]
    exact hkernel va

/-- A page that neither the kernel nor any process has. -/
def Unowned (s : Sys T) (page : Nat) : Prop :=
  page ∉ tabs 3 s.phys.mem s.kernelRoot ∧
    ∀ r ∈ userRoots s ++ building s, page ∉ owned s.phys.mem r

/-- The page an allocation takes is the first of the free list, and was nobody's. -/
theorem Sane.alloc_unowned (h : Sane E pool lost s) (ha : allocPage s.phys = .ok (page, P)) :
    Unowned s page ∧ ∃ free, Chain (load64 s.phys.mem) s.phys.head (page :: free) := by
  have hpool := h.pages_held
  obtain ⟨hp, _⟩ := hpool.alloc_some (allocPage_some ha)
  have hnew := (List.nodup_cons.mp hp.nodup).1
  refine ⟨⟨fun hk => hnew (List.mem_append_left _ hk), fun r hr ho => ?_⟩, ?_⟩
  · exact hnew (List.mem_append_right _ (List.mem_flatMap.mpr ⟨r, hr, ho⟩))
  · obtain ⟨rfl, hz⟩ := Kalloc.alloc_head (allocPage_some ha)
    obtain ⟨free, hc, _, _⟩ := hpool
    obtain ⟨rest, rfl, _⟩ := hc.head_ne hz
    exact ⟨rest, hc⟩

/-- The roots that are in use, seen from the caller. -/
theorem live_roots {lost : List Heap.Live}
    (hperm : (lost.map Asset.block ++ stock E s).Perm (.proc d :: R))
    (ht : d.userTable = some t) (hr : LiveRoot s r) : r = t ∨ r = s.kernelRoot ∨ r ∈ rootsOf E R := by
  rcases hr with rfl | hr
  · exact .inr (.inl rfl)
  · rw [← rootsOf_stock E lost s] at hr
    have hmem : r ∈ rootsOf E (.proc d :: R) :=
      ((hperm.flatMap_right _).map _).mem_iff.mp hr
    rw [← List.singleton_append, rootsOf_append, rootsOf_proc, ht] at hmem
    rcases List.mem_append.mp hmem with hmem | hmem
    · exact .inl (List.mem_singleton.mp hmem)
    · exact .inr (.inr hmem)

namespace Serving

theorem growable_iff (h : Serving E pool s i p t R) : Growable s p addr ↔
    p.heapBase ≤ addr ∧ addr < p.heapBrk ∧
      translate s.phys t (addr / pageSize * pageSize) = .ok none := by
  unfold Growable
  rw [h.pageTable]
  refine and_congr_right (fun hlo => and_congr_right (fun hhi => ?_))
  obtain ⟨_, hlow⟩ := h.heap_page hlo hhi
  rw [translate_eq _ _ _ (Nat.lt_of_lt_of_le hlow (by decide)), lookup]
  cases look (addr / pageSize * pageSize) 2 s.phys.mem t <;> simp

/-- The page of a served fault. -/
theorem hung_leaf (h : Serving E pool s i p t R) (hg : Growable s p addr)
    (ha : Added m m₁ m' t (addr / pageSize * pageSize) dst perm)
    (hpage : va / pageSize = addr / pageSize) :
    va < vaMax ∧ look va 2 m' t = some (paToPte dst ||| leafFlags perm) := by
  obtain ⟨hlo, hhi⟩ := h.heap_page hg.1 hg.2.1
  have hpage : va / 4096 = addr / 4096 := hpage
  have hlo : 0x50000000 ≤ addr / 4096 * 4096 := hlo
  have hhi : addr / 4096 * 4096 < 0x80000000 := hhi
  obtain ⟨hslot, hva⟩ := vpn_user (show userText ≤ va by unfold userText; omega) (by omega)
  refine ⟨hva, ?_⟩
  rw [ha.looks va hva hslot, if_pos]
  show va / 4096 = addr / 4096 * 4096 / 4096
  rw [Nat.mul_div_cancel _ (by decide), hpage]

/-- A page hung into the caller's table changes the one translation. -/
theorem hung_look (h : Serving E pool s i p t R) (h' : Serving E pool { s with phys := P } i p t R)
    {fill : Phys → Nat → Mem} (hg : Hung pool s.kernelRoot (R.flatMap (Asset.holdings E)) s.phys P t va perm
      fill) (hr : r = t ∨ r = s.kernelRoot ∨ r ∈ rootsOf E R) (hv : v < vaMax)
    (hne : r ≠ t ∨ v / 4096 ≠ va / 4096) : look v 2 P.mem r = look v 2 s.phys.mem r := by
  have hl : Leaves E R s { s with phys := P } := .of_spared hg.spared
  have hlaid : Laid s.phys.mem s.kernelRoot (R.flatMap (Asset.holdings E)) := by
    have hall := h.books.owns.spaces.toLaid
    rw [h.holdings] at hall
    exact Spaces.tail hall
  by_cases hrt : r = t
  · subst hrt
    obtain ⟨dst, P₁, _, hadd⟩ := hg.added
    by_cases hu : vpn v 2 = userL2Index
    · rw [hadd.looks v hv hu, if_neg (hne.resolve_left (fun hn => hn rfl))]
    · rw [look_shared h.root hu, look_shared h'.root hu]
      exact hl.look_eq hlaid (.inl rfl) v
  · exact hl.look_eq hlaid (hr.resolve_left hrt) v

end Serving

/-- Enough pages for the frame and the tables it lacks: a fault is served
exactly when it lies in the heap and on no page yet, and then that page appears
and nothing else changes. -/
theorem demand_paging_exact (h : Reachable E reserved s) (ha : Acts s i p t) (addr : Nat)
    (enough : 1 + missing (addr / pageSize * pageSize) 2 s.phys.mem t ≤ s.phys.freePages) :
    ∃ b s', Proc.servicePageFault s addr = .ok (b, s') ∧
      (b = true ↔ p.heapBase ≤ addr ∧ addr < p.heapBrk ∧
        translate s.phys t (addr / pageSize * pageSize) = .ok none) ∧
      (b = false → s' = s) ∧
      (b = true → s' = { s with phys := s'.phys } ∧ ∃ frame,
        Unowned s frame ∧ (∃ free, Chain (load64 s.phys.mem) s.phys.head (frame :: free)) ∧
        (∀ x < pageSize, s'.phys.mem (frame + x) = 0) ∧
        (∀ va, va / pageSize = addr / pageSize →
          ∃ pte, translate s'.phys t va = .ok (some (frame + va % pageSize, pte)) ∧
            flagsOf pte = pteR ||| pteW ||| pteU ||| pteA ||| pteD ||| pteV) ∧
        (∀ r va, LiveRoot s r → va < vaMax → r ≠ t ∨ va / pageSize ≠ addr / pageSize →
          translate s'.phys r va = translate s.phys r va) ∧
        ∀ acc, acc ≠ .fetch →
          Sv39.access s'.phys.mem s'.hart.satp addr acc .user false =
            some (frame + addr % pageSize)) := by
  obtain ⟨res, lost, -, hsane⟩ := reachable_sane h
  obtain ⟨R, hperm, hserv⟩ := hsane.serving ha
  have hspec := hserv.servicePageFault_spec addr
  generalize Proc.servicePageFault s addr = run at hspec
  cases hspec with
  | refused why =>
    refine ⟨false, s, rfl, ?_, fun _ => rfl, fun hb => by cases hb⟩
    rw [← hserv.growable_iff]
    have hno : ¬Growable s p addr := why.resolve_right (by omega)
    exact ⟨fun hb => (by cases hb), fun hg => absurd hg hno⟩
  | stuck why some few => omega
  | mapped why enough P hserv' hung =>
    refine ⟨true, _, rfl, ?_, (fun hb => by cases hb), fun _ => ⟨rfl, ?_⟩⟩
    · rw [← hserv.growable_iff]
      exact ⟨fun _ => why, fun _ => rfl⟩
    obtain ⟨dst, P₁, halloc, hadd⟩ := id hung.added
    obtain ⟨hfresh, hfree⟩ := hsane.alloc_unowned halloc
    have hleaf : ∀ va, va / pageSize = addr / pageSize → va < vaMax ∧
        look va 2 P.mem t = some (paToPte dst ||| leafFlags dataPerm) :=
      fun va hpage => hserv.hung_leaf why hadd hpage
    have hword : dst < 2 ^ 64 := Nat.lt_trans hadd.bound (by decide)
    refine ⟨dst, hfresh, hfree, fun x hx => ?_, fun va hpage => ?_, fun r va hr hva hne => ?_,
      fun acc hacc => ?_⟩
    · have hzero := (hsane.pages_held.alloc_some (allocPage_some halloc)).2.2.2
      have hx : x < 4096 := hx
      rw [hadd.content (dst + x) (by omega) (by omega)]
      exact hzero (dst + x) (by omega) (by omega)
    · obtain ⟨hva, hlook⟩ := hleaf va hpage
      refine ⟨_, ?_, (leaf_pte hadd.aligned hword (by decide)).2.2.2⟩
      rw [translate_eq _ _ _ hva, lookup_leaf hlook hadd.aligned hword (by decide)]
    · refine translate_congr (hserv.hung_look hserv' hung (live_roots hperm ha.space hr) hva ?_)
      rwa [Nat.mul_div_cancel _ (by decide)]
    · obtain ⟨hva, hlook⟩ := hleaf addr rfl
      rw [hserv'.satp]
      refine Sv39.access_leaf hserv'.caller.dirs hlook ⟨rfl, hadd.aligned, hadd.bound⟩ (by decide)
        (by decide) (by decide) ?_ (.inl rfl) hva
      cases acc with
      | fetch => exact absurd rfl hacc
      | load => decide
      | store => decide

/-- Page `n` of a heap. -/
abbrev heapPage (n : Nat) : Nat := userHeapBase + pageSize * n

/-- The first process has touched nothing of its heap. -/
theorem Userland.heap_bare (h : Userland s d e) (ht : d.userTable = some t) (hn : n < 65536) :
    look (heapPage n) 2 s.phys.mem t = none := by
  have hfit : Fits s.phys.mem t (planOf smallEnv d) := by
    refine h.books.owns.spaces.fits (t, _) ?_ _ rfl
    exact List.mem_flatMap.mpr ⟨_, List.mem_cons_self, by simp [Asset.holdings, ht]⟩
  have hbrk : d.heapBrk = 0x50000000 := h.first.heap.2
  have hshort : (planOf smallEnv d).text * 4096 ≤ 0x10000000 := hfit.short
  have hpage : heapPage n = 0x50000000 + 4096 * n := rfl
  refine hfit.unmapped (show 0x40000000 ≤ heapPage n by omega) (by omega) (fun perm ha => ?_)
  rcases ha with ⟨⟨_, hin⟩, _⟩ | ⟨⟨_, _, hin⟩ | ⟨_, hin⟩, _⟩
  · have hin : heapPage n < 0x40000000 + (planOf smallEnv d).text * 4096 := hin
    omega
  · have hin : heapPage n < 0x41000000 := hin
    omega
  · have hin : heapPage n / 4096 * 4096 < d.heapBrk := hin
    omega

/-- A process with a page of heap touches it. -/
theorem demand_paging_first : ∃ (s s' : Sys Nat) (t frame pte : Nat), Reachable smallEnv none s ∧
    Proc.servicePageFault s userHeapBase = .ok (true, s') ∧ Unowned s frame ∧
    translate s.phys t userHeapBase = .ok none ∧
    translate s'.phys t userHeapBase = .ok (some (frame, pte)) ∧ s'.phys.mem frame = 0 ∧
    translate s'.phys t userText = translate s.phys t userText := by
  obtain ⟨s, d, e, hu⟩ := userland Nat
  obtain ⟨t, u, ht, _⟩ := hu.roots
  have hbrk : (Proc.seated (T := Nat) d).heapBrk = userHeapBase := hu.first.heap.2
  have hbase : (Proc.seated (T := Nat) d).heapBase = userHeapBase := hu.first.heap.1
  have hmax : (Proc.seated (T := Nat) d).heapBrk + pageSize ≤ userHeapMax := by
    rw [hbrk]
    decide
  obtain ⟨s', hsteps, hphys, hin⟩ := (hu.inside ht).sbrk hu.reachable hu.first.image hmax
  have hr := hu.reachable.steps hsteps
  have hfew := missing_le (userHeapBase / pageSize * pageSize) 2 s'.phys.mem t
  have hpages := hu.ample.pages
  have hround : userHeapBase / pageSize * pageSize = userHeapBase := rfl
  obtain ⟨b, s₁, hrun, hiff, -, hyes⟩ := demand_paging_exact hr hin.acts userHeapBase
    (by rw [hphys] at *; omega)
  have hnone : translate s'.phys t userHeapBase = .ok none := by
    have hbare : look userHeapBase 2 s.phys.mem t = none := hu.heap_bare ht (n := 0) (by decide)
    rw [translate_eq _ _ _ (by decide), lookup, hphys, hbare, Option.map_none]
  obtain rfl : b = true := by
    rw [hiff, hround]
    refine ⟨Nat.le_of_eq hbase, ?_, hnone⟩
    show userHeapBase < (Proc.seated (T := Nat) d).heapBrk + pageSize
    rw [hbrk]
    decide
  obtain ⟨_, frame, hown, _, hzero, hnew, hrest, _⟩ := hyes rfl
  obtain ⟨pte, hpte, _⟩ := hnew userHeapBase rfl
  have hlive : LiveRoot s' t :=
    .inr (List.mem_append_left _ (userRoots_mem (Sys.currentProc_eq hin.caller).2 hin.space))
  exact ⟨s', s₁, t, frame, pte, hr, hrun, hown, hnone, hpte, hzero 0 (by decide),
    hrest t userText hlive (by decide) (.inr (by decide))⟩

/-- A page fault is survived: the handler returns, and where the frame and the
tables it lacks are not all to be had, it refuses and changes nothing. -/
def Survives (s : Sys T) (t addr : Nat) : Prop :=
  ∃ b s', Proc.servicePageFault s addr = .ok (b, s') ∧
    (s.phys.freePages < 1 + missing (addr / pageSize * pageSize) 2 s.phys.mem t → b = false ∧ s' = s)

/-- That is so unless the fault can be served, and there is a page for the frame
but not for all of its tables. -/
theorem service_page_fault_pressure (h : Reachable E reserved s) (ha : Acts s i p t) (addr : Nat) :
    Survives s t addr ↔
      ¬(p.heapBase ≤ addr ∧ addr < p.heapBrk ∧
          translate s.phys t (addr / pageSize * pageSize) = .ok none) ∨
        s.phys.freePages = 0 ∨
        1 + missing (addr / pageSize * pageSize) 2 s.phys.mem t ≤ s.phys.freePages := by
  obtain ⟨res, lost, -, hsane⟩ := reachable_sane h
  obtain ⟨R, -, hserv⟩ := hsane.serving ha
  rw [← hserv.growable_iff]
  unfold Survives
  have hspec := hserv.servicePageFault_spec addr
  generalize Proc.servicePageFault s addr = run at hspec
  cases hspec with
  | refused why =>
    refine ⟨fun _ => ?_, fun _ => ⟨false, s, rfl, fun _ => ⟨rfl, rfl⟩⟩⟩
    exact why.imp_right .inl
  | stuck why some few =>
    refine ⟨fun hs => ?_, fun hc => ?_⟩
    · obtain ⟨_, _, hrun, _⟩ := hs
      cases hrun
    · rcases hc with hc | hc | hc
      · exact absurd why hc
      · omega
      · omega
  | mapped why enough P hserv' hung =>
    refine ⟨fun _ => .inr (.inr (by omega)), fun _ => ⟨true, _, rfl, fun hfew => ?_⟩⟩
    omega

/-- There are pages enough at first. -/
theorem service_page_fault_pressure_first : ∃ (s : Sys Nat) (t : Nat), Reachable smallEnv none s ∧
    1 + missing userHeapBase 2 s.phys.mem t ≤ s.phys.freePages ∧ Survives s t userHeapBase := by
  obtain ⟨s, d, e, hu⟩ := userland Nat
  obtain ⟨t, u, ht, _⟩ := hu.roots
  have henough : 1 + missing userHeapBase 2 s.phys.mem t ≤ s.phys.freePages := by
    have hfew := missing_le userHeapBase 2 s.phys.mem t
    have hpages := hu.ample.pages
    omega
  exact ⟨s, t, hu.reachable, henough, (service_page_fault_pressure hu.reachable (hu.acts ht)
    userHeapBase).mpr (.inr (.inr henough))⟩

theorem heapPage_round (k : Nat) : heapPage k / pageSize * pageSize = heapPage k := by
  show (0x50000000 + 4096 * k) / 4096 * 4096 = 0x50000000 + 4096 * k
  omega

theorem heapPage_slot (hk : k < 65536) : vpn (heapPage k) 2 = userL2Index ∧ heapPage k < vaMax ∧
    vpn (heapPage k) 1 = 128 + k / 512 := by
  have hpage : heapPage k = 0x50000000 + 4096 * k := rfl
  obtain ⟨hu, hva⟩ := vpn_user (show userText ≤ heapPage k by unfold userText; omega) (by omega)
  refine ⟨hu, hva, ?_⟩
  rw [vpn_one]
  omega

/-- A process in its program whose whole heap is reserved, and whose pages from
`n` on are untouched. -/
structure Touching (s : Sys T) (p : Process T) (t n : Nat) : Prop where
  reachable : Reachable smallEnv none s
  inside : Inside s 0 p t
  base : p.heapBase = userHeapBase
  brk : p.heapBrk = userHeapMax
  bare : ∀ k, n ≤ k → k < 65536 → look (heapPage k) 2 s.phys.mem t = none

namespace Touching

theorem serving (h : Touching s p t n) :
    ∃ pool R, Serving smallEnv pool s 0 p t R := by
  obtain ⟨res, lost, -, hsane⟩ := reachable_sane h.reachable
  obtain ⟨R, -, hserv⟩ := hsane.serving h.inside.acts
  exact ⟨_, R, hserv⟩

theorem growable (h : Touching s p t n) (hk : n ≤ k) (hlt : k < 65536) : Growable s p (heapPage k) := by
  obtain ⟨_, R, hserv⟩ := h.serving
  refine ⟨?_, ?_, ?_⟩
  · rw [h.base]
    exact Nat.le_add_right _ _
  · rw [h.brk]
    show 0x50000000 + 4096 * k < 0x60000000
    omega
  · rw [heapPage_round, hserv.pageTable]
    exact h.bare k hk hlt

/-- A page of a region that has one already takes no table. -/
theorem missing_zero (hk : look (heapPage k) 2 m t ≠ none) (hj : j / 512 = k / 512)
    (hlt : j < 65536) (hk' : k < 65536) : missing (heapPage j) 2 m t = 0 := by
  obtain ⟨hu, _, h1⟩ := heapPage_slot hlt
  obtain ⟨hu', _, h1'⟩ := heapPage_slot hk'
  exact (missing_near hk (hu.trans hu'.symm)).2 (by omega)

/-- The first page of an untouched region takes one. -/
theorem missing_one (h : Touching s p t n) (hn : n ≤ k) (hk : k % 512 = 0) (hlt : k < 65536) :
    missing (heapPage k) 2 s.phys.mem t = 1 := by
  obtain ⟨_, R, hserv⟩ := h.serving
  obtain ⟨hu, hva, h1⟩ := heapPage_slot hlt
  have hfit : Fits s.phys.mem t (planOf smallEnv p.toProcData) :=
    hserv.caller.laid.fits _ hserv.caller.held _ rfl
  have hstack : look (userStackTop - pageSize) 2 s.phys.mem t ≠ none :=
    hfit.loaded _ (by decide) (by decide) (.inr ⟨rfl, by decide, by decide⟩)
  have hle := (missing_near hstack (show vpn (heapPage k) 2 = _ from hu)).1
  have hne : missing (heapPage k) 2 s.phys.mem t ≠ 0 := by
    intro hz
    obtain ⟨v, hv, hu', hv1, hl⟩ := hfit.tight _ hu hz
    -- a mapped page of the region would be one of those from `k` on
    have hin : v / 4096 = heapPage ((v - 0x50000000) / 4096) / 4096 ∧
        k ≤ (v - 0x50000000) / 4096 ∧ (v - 0x50000000) / 4096 < 65536 := by
      have hpage : ∀ j, heapPage j = 0x50000000 + 4096 * j := fun _ => rfl
      have hv : v < 0x4000000000 := hv
      rw [vpn_two, show userL2Index = 1 from rfl] at hu'
      rw [h1, vpn_one] at hv1
      rw [hpage]
      omega
    obtain ⟨_, hva', _⟩ := heapPage_slot hin.2.2
    have hsame := (samePath_page hva' hv).mpr hin.1
    exact hl ((hsame.look _ _).trans (h.bare _ (Nat.le_trans hn hin.2.1) hin.2.2))
  omega

/-- One more page. -/
theorem touch (h : Touching s p t n) (hk : n ≤ k) (hlt : k < 65536)
    (enough : missing (heapPage k) 2 s.phys.mem t < s.phys.freePages) :
    ∃ P, Touching { s with phys := P } p t (k + 1) ∧ look (heapPage k) 2 P.mem t ≠ none ∧
      P.freePages + (1 + missing (heapPage k) 2 s.phys.mem t) = s.phys.freePages := by
  have hpage : ∀ j, heapPage j = 0x50000000 + 4096 * j := fun _ => rfl
  have hfault : Step smallEnv s (s.trapped 15 (heapPage k)) :=
    h.inside.fault (by rw [hpage]; omega)
  obtain ⟨res, lost, -, hsane⟩ := reachable_sane (h.reachable.step hfault)
  obtain ⟨R, -, hserv⟩ := hsane.serving (h.inside.trapped_acts 15 (heapPage k))
  have hspec := hserv.servicePageFault_spec (heapPage k)
  have hgrow : Growable (s.trapped 15 (heapPage k)) p (heapPage k) := h.growable hk hlt
  generalize hrun : Proc.servicePageFault (s.trapped 15 (heapPage k)) (heapPage k) = run at hspec
  cases hspec with
  | refused why =>
    have hz : s.phys.freePages = 0 := why.resolve_left (fun hn => hn hgrow)
    omega
  | stuck why some few =>
    rw [heapPage_round] at few
    exact absurd enough (Nat.not_lt.mpr few)
  | mapped why enough P hserv' hung =>
    have hcount := hung.count
    obtain ⟨dst, P₁, _, hadd⟩ := hung.added
    rw [heapPage_round] at hcount hadd
    have hhandle : Step smallEnv (s.trapped 15 (heapPage k))
        (Sys.goto { s.trapped 15 (heapPage k) with phys := P } [.trapRet (Trap.frameOf s.hart)]) := by
      refine .exec (fun _ => 0) rfl ?_
      show (Proc.servicePageFault (s.trapped 15 (heapPage k)) (heapPage k) >>= _) = _
      rw [hrun]
      rfl
    have hback : Step smallEnv
        (Sys.goto { s.trapped 15 (heapPage k) with phys := P } [.trapRet (Trap.frameOf s.hart)])
        { s with phys := P } := by
      rw [← h.inside.resumed P 15 (heapPage k)]
      exact .exec (fun _ => 0) rfl rfl
    refine ⟨P, ⟨((h.reachable.step hfault).step hhandle).step hback,
      ⟨h.inside.code, h.inside.stack, h.inside.caller, h.inside.space⟩, h.base, h.brk,
      fun j hj hj' => ?_⟩, ?_, hcount⟩
    · obtain ⟨hu, hva, _⟩ := heapPage_slot hj'
      rw [hadd.looks _ hva hu, if_neg (by rw [hpage, hpage]; omega)]
      exact h.bare j (by omega) hj'
    · obtain ⟨hu, hva, _⟩ := heapPage_slot hlt
      rw [hadd.looks _ hva hu, if_pos rfl]
      exact Option.some_ne_none _

/-- With one page left, the next untouched region is out of reach. -/
theorem stuck (h : Touching s p t n) (hn : n < 65024) (hone : s.phys.freePages = 1) :
    ∃ (s : Sys T) (addr : Nat), Reachable smallEnv none s ∧ Acts s 0 p t ∧ addr < 2 ^ 64 ∧
      Proc.servicePageFault s addr = .error .outOfPages := by
  obtain ⟨k, hk, hlt, hle⟩ : ∃ k, k % 512 = 0 ∧ k < 65536 ∧ n ≤ k :=
    ⟨(n / 512 + 1) * 512, by omega, by omega, by omega⟩
  have hgap := h.missing_one hle hk hlt
  have hword : heapPage k < 2 ^ 64 := by
    show 0x50000000 + 4096 * k < _
    omega
  have hreach := h.reachable.step (h.inside.fault hword)
  obtain ⟨res, lost, -, hsane⟩ := reachable_sane hreach
  obtain ⟨R, -, hserv⟩ := hsane.serving (h.inside.trapped_acts 15 (heapPage k))
  have hspec := hserv.servicePageFault_spec (heapPage k)
  have hgrow : Growable (s.trapped 15 (heapPage k)) p (heapPage k) := h.growable hle hlt
  refine ⟨_, heapPage k, hreach, h.inside.trapped_acts 15 (heapPage k), hword, ?_⟩
  generalize Proc.servicePageFault (s.trapped 15 (heapPage k)) (heapPage k) = run at hspec ⊢
  cases hspec with
  | refused why =>
    have hz : s.phys.freePages = 0 := why.resolve_left (fun hn => hn hgrow)
    omega
  | stuck why some few => rfl
  | mapped why enough P hserv' hung =>
    rw [heapPage_round] at enough
    have enough : missing (heapPage k) 2 s.phys.mem t < s.phys.freePages := enough
    omega

/-- Touching page after page, one region after the other, comes to that point. -/
theorem exhausts (f n : Nat) (h : Touching s p t n) (hf : s.phys.freePages = f + 1)
    (hlast : look (heapPage (n - 1)) 2 s.phys.mem t ≠ none) (hmid : n % 512 ≠ 0)
    (hroom : n + f < 65000) :
    ∃ (s : Sys T) (addr : Nat), Reachable smallEnv none s ∧ Acts s 0 p t ∧ addr < 2 ^ 64 ∧
      Proc.servicePageFault s addr = .error .outOfPages := by
  induction f using Nat.strongRecOn generalizing s n with
  | ind f ih =>
    rcases Nat.eq_zero_or_pos f with rfl | hpos
    · exact h.stuck (by omega) hf
    have hnear : missing (heapPage n) 2 s.phys.mem t = 0 :=
      missing_zero hlast (by omega) (by omega) (by omega)
    by_cases hend : n % 512 = 511 ∧ 2 ≤ f
    · -- the last page of a region is kept for later
      have hfar := h.missing_one (Nat.le_add_right n 1) (by omega) (by omega)
      obtain ⟨P, hP, hl, hcount⟩ := h.touch (Nat.le_add_right n 1) (by omega) (by omega)
      exact ih (f - 2) (by omega) (n + 2) hP (by dsimp only; omega) hl (by omega) (by omega)
    · obtain ⟨P, hP, hl, hcount⟩ := h.touch (Nat.le_refl n) (by omega) (by omega)
      by_cases hlow : n % 512 = 511
      · exact hP.stuck (by omega) (by dsimp only; omega)
      · exact ih (f - 1) (by omega) (n + 1) hP (by dsimp only; omega) hl (by omega) (by omega)

end Touching

theorem Userland.pages_le (h : Userland s d e) : s.phys.freePages ≤ 29952 := by
  obtain ⟨free, _, hn, hperm⟩ := h.books.owns.spaces.pool
  have hlen := hperm.length_eq
  rw [Kalloc.seedPool_pages, smallEnv_seeds, List.length_append] at hlen
  omega

/-- A process that reserves the whole heap and touches it page by page has the
kernel panic with one page left. -/
theorem page_fault_panics : ∃ (s : Sys Nat) (p : Process Nat) (t addr : Nat),
    Reachable smallEnv none s ∧ Acts s 0 p t ∧ addr < 2 ^ 64 ∧
    Proc.servicePageFault s addr = .error .outOfPages ∧ ¬Survives s t addr := by
  obtain ⟨s, d, e, hu⟩ := userland Nat
  obtain ⟨t, u, ht, _⟩ := hu.roots
  have hbrk : (Proc.seated (T := Nat) d).heapBrk = 0x50000000 := hu.first.heap.2
  have hmax : (Proc.seated (T := Nat) d).heapBrk + 0x10000000 ≤ userHeapMax := by
    unfold userHeapMax
    omega
  obtain ⟨s', hsteps, hphys, hin⟩ := (hu.inside ht).sbrk hu.reachable hu.first.image hmax
  obtain ⟨p, hstart⟩ : ∃ p, Touching s' p t 0 := by
    refine ⟨_, hu.reachable.steps hsteps, hin, hu.first.heap.1, ?_, fun k _ hk => ?_⟩
    · show (Proc.seated (T := Nat) d).heapBrk + 0x10000000 = 0x60000000
      omega
    · rw [hphys]
      exact hu.heap_bare ht hk
  have hfew := missing_le (heapPage 0) 2 s'.phys.mem t
  have hpages := hu.ample.pages
  have hall := hu.pages_le
  rw [← hphys] at hpages hall
  obtain ⟨P, hP, hl, hcount⟩ := hstart.touch (Nat.le_refl 0) (by decide) (by omega)
  obtain ⟨s₁, addr, hr, ha, hword, hrun⟩ := hP.exhausts (P.freePages - 1) 1 (by dsimp only; omega) hl
    (by decide) (by omega)
  refine ⟨s₁, _, t, addr, hr, ha, hword, hrun, fun hs => ?_⟩
  obtain ⟨b, s₂, hok, _⟩ := hs
  cases hrun.symm.trans hok

end Osmium
