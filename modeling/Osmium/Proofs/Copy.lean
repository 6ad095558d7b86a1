import Osmium.Proofs.Estate
import Osmium.Proofs.Frame

namespace Osmium.Vm
open Lib Sv39

theorem look_page (h : va / 4096 = vb / 4096) (l : Nat) (m : Mem) (t : Nat) :
    look va l m t = look vb l m t := by
  refine SamePath.look (fun k _ => ?_) m t
  rw [vpn_eq, vpn_eq, Nat.pow_add, ← Nat.div_div_eq_div_mul, ← Nat.div_div_eq_div_mul]
  rw [show va / 2 ^ 12 = vb / 2 ^ 12 from h]

/-- Outside the user slot a process sees the kernel's mappings. -/
theorem look_shared (h : UserRoot m kroot t) (hv : vpn va 2 ≠ userL2Index) :
    look va 2 m t = look va 2 m kroot := by
  have he := h.shares (vpn va 2) (vpn_lt va 2) hv
  rw [look_succ, look_succ]
  unfold child
  rw [he]

/-- A process's table is made of plain pointers all over. -/
theorem UserRoot.dirs_all (h : UserRoot m kroot t) (hk : KernelMap m kroot) : Dirs 2 m t := by
  intro i hi c hc
  by_cases hu : i = userL2Index
  · subst hu
    exact h.dirs c hc
  · have he := h.shares i hi hu
    rw [he]
    have hchild : child m kroot i = child m t i := by
      unfold child
      rw [he]
    exact hk.dirs i hi c (hchild.trans hc)

/-- Only the user slot has user pages. -/
theorem user_slot (h : UserRoot m kroot t) (hk : KernelMap m kroot) (hl : look va 2 m t = some e)
    (hu : e &&& pteU ≠ 0) : vpn va 2 = userL2Index := by
  by_contra hv
  rw [look_shared h hv] at hl
  exact hu (hk.noUser va e hl)

/-- Two pages of a table never share a frame. -/
theorem frames_inj (hn : (frames (l + 1) m t).Nodup) (ha : look va l m t = some e)
    (hb : look vb l m t = some e') (he : pteToPa e = pteToPa e') : ∀ k ≤ l, vpn va k = vpn vb k := by
  induction l generalizing t with
  | zero =>
    have hfound : ∀ v e, look v 0 m t = some e →
        pteToPa e ∈ (child m t (vpn v 0)).elim [] (frames 0 m) := by
      intro v e hl
      unfold look at hl
      split at hl
      · rename_i hv
        obtain rfl := Option.some.inj hl
        rw [child_valid hv]
        exact List.mem_singleton_self _
      · cases hl
    intro k hk
    obtain rfl : k = 0 := Nat.le_zero.mp hk
    rw [frames_succ] at hn
    exact flatMap_origin hn (List.mem_range.mpr (vpn_lt ..)) (List.mem_range.mpr (vpn_lt ..))
      (hfound va e ha) (he ▸ hfound vb e' hb)
  | succ l ih =>
    rw [look_succ] at ha hb
    obtain ⟨c, hc, ha⟩ := Option.bind_eq_some_iff.mp ha
    obtain ⟨c', hc', hb⟩ := Option.bind_eq_some_iff.mp hb
    rw [frames_succ] at hn
    have hma : pteToPa e ∈ (child m t (vpn va (l + 1))).elim [] (frames (l + 1) m) := by
      rw [hc, Option.elim_some]
      exact look_frame ha
    have hmb : pteToPa e ∈ (child m t (vpn vb (l + 1))).elim [] (frames (l + 1) m) := by
      rw [hc', he, Option.elim_some]
      exact look_frame hb
    have htop := flatMap_origin hn (List.mem_range.mpr (vpn_lt ..)) (List.mem_range.mpr (vpn_lt ..))
      hma hmb
    have hcc : c = c' := by
      rw [htop, hc'] at hc
      exact (Option.some.inj hc).symm
    subst hcc
    have hsub := nodup_of_flatMap hn (List.mem_range.mpr (vpn_lt va (l + 1)))
    rw [hc, Option.elim_some] at hsub
    intro k hk
    rcases Nat.lt_or_eq_of_le hk with hk | rfl
    · exact ih hsub ha hb k (by omega)
    · exact htop

/-- The physical address behind a mapped one. -/
def reach (m : Mem) (t va : Nat) : Nat := pteToPa ((look va 2 m t).getD 0) + va % 4096

/-- A user page that the listed bits are set for. -/
structure Usable (m : Mem) (t : Nat) (bits : List Nat) (va : Nat) : Prop where
  low : va < vaMax
  slot : vpn va 2 = userL2Index
  leaf : ∃ e f perm, look va 2 m t = some e ∧ Leaf e f perm ∧ perm < 256 ∧ perm &&& pteU ≠ 0 ∧
    perm &&& pteR ≠ 0 ∧ ∀ b ∈ bits, perm &&& b ≠ 0

namespace Usable

theorem congr (h : Usable m t bits va) (hs : ∀ q ∈ userTabs m t, SameOn m m' q 4096) :
    Usable m' t bits va ∧ reach m' t va = reach m t va := by
  have hl := userLook_congr hs h.slot
  refine ⟨⟨h.low, h.slot, ?_⟩, by unfold reach; rw [hl]⟩
  rw [hl]
  exact h.leaf

theorem frame (h : Usable m t bits va) :
    reach m t va - va % 4096 ∈ userFrames m t ∧ va % 4096 ≤ reach m t va := by
  obtain ⟨e, f, perm, hl, hleaf, hp, _⟩ := h.leaf
  unfold reach
  rw [hl, Option.getD_some, Nat.add_sub_cancel]
  exact ⟨look_userFrame h.slot hl, by omega⟩

/-- The kernel's copies reach it, through the table in `satp`. -/
theorem access (h : Usable m t bits va) (hd : Dirs 2 m t) (ha : acc = .load ∨ acc = .store ∧ pteW ∈ bits) :
    Sv39.access m t va acc .supervisor true = some (reach m t va) := by
  obtain ⟨e, f, perm, hl, hleaf, hp, hu, hr, hb⟩ := h.leaf
  have hbit : perm &&& Access.bit acc ≠ 0 := by
    rcases ha with rfl | ⟨rfl, hw⟩
    · exact hr
    · exact hb _ hw
  have hacc : acc ≠ .fetch := by
    rcases ha with rfl | ⟨rfl, _⟩ <;> decide
  rw [access_leaf hd hl hleaf hp hr hu hbit (.inr ⟨rfl, hacc⟩) h.low]
  unfold reach
  rw [hl, Option.getD_some, hleaf.frame_eq hp]

end Usable

/-- Different addresses of a process lie at different places. -/
theorem reach_inj (hn : (userFrames m t).Nodup) (ha : Usable m t bits va) (hb : Usable m t bits' vb)
    (he : reach m t va = reach m t vb) : va = vb := by
  obtain ⟨e, f, p, hl, hleaf, hp, _⟩ := ha.leaf
  obtain ⟨e', f', p', hl', hleaf', hp', _⟩ := hb.leaf
  unfold reach at he
  rw [hl, hl', Option.getD_some, Option.getD_some, hleaf.frame_eq hp, hleaf'.frame_eq hp'] at he
  have h1 := hleaf.aligned
  have h2 := hleaf'.aligned
  have hf : f = f' := by omega
  have hpath : ∀ k ≤ 1, vpn va k = vpn vb k := by
    rw [look_succ, ha.slot] at hl
    rw [look_succ, hb.slot] at hl'
    obtain ⟨c, hc, hl⟩ := Option.bind_eq_some_iff.mp hl
    obtain ⟨c', hc', hl'⟩ := Option.bind_eq_some_iff.mp hl'
    obtain rfl : c = c' := Option.some.inj (hc.symm.trans hc')
    unfold userFrames at hn
    rw [hc, Option.elim_some] at hn
    refine frames_inj hn hl hl' ?_
    rw [hleaf.frame_eq hp, hleaf'.frame_eq hp', hf]
  have hpage : va / 4096 = vb / 4096 := by
    refine (vpn_inj ha.low hb.low).mp (fun k hk => ?_)
    rcases Nat.lt_or_eq_of_le hk with hk | rfl
    · exact hpath k (by omega)
    · rw [ha.slot, hb.slot]
  omega

end Osmium.Vm

namespace Osmium.Syscall
open Lib Vm Sv39

/-- The range a copy may touch ends below the limit of the walk. -/
theorem rangeEnd_some (h : rangeEnd ptr len = some stop) : stop = ptr + len ∧ stop ≤ vaMax := by
  unfold rangeEnd at h
  split at h
  · split at h
    · cases h
    · obtain rfl := Option.some.inj h
      exact ⟨rfl, by omega⟩
  · cases h

/-- The check of a range: it never leaves the lower half, and it says yes only
if every page is there with the bits asked for. -/
theorem checkPages_spec (P : Phys) (root : Nat) (bits : List Nat) (hs : stop ≤ vaMax) (page : Nat) :
    ∃ b, checkPages P root bits stop page = .ok b ∧
      (b = true ↔ ∀ n, page + 4096 * n < stop → ∃ e, look (page + 4096 * n) 2 P.mem root = some e ∧
        ∀ b ∈ bits, e &&& b ≠ 0) := by
  induction hk : stop - page using Nat.strongRecOn generalizing page with
  | ind k ih =>
    rw [checkPages]
    by_cases hp : page < stop
    · rw [if_pos hp, translate_eq P root page (by omega), ok_bind]
      unfold lookup
      cases hl : look page 2 P.mem root with
      | none =>
        refine ⟨false, rfl, by simp, fun h => ?_⟩
        obtain ⟨e, he, _⟩ := h 0 hp
        rw [Nat.mul_zero, Nat.add_zero, hl] at he
        cases he
      | some e =>
        simp only [Option.map_some]
        by_cases hb : bits.any (fun b => e &&& b = 0) = true
        · rw [if_pos hb]
          refine ⟨false, rfl, by simp, fun h => ?_⟩
          obtain ⟨e', he, hbits⟩ := h 0 hp
          rw [Nat.mul_zero, Nat.add_zero, hl] at he
          obtain rfl := Option.some.inj he
          obtain ⟨b, hm, hz⟩ := List.any_eq_true.mp hb
          exact absurd (of_decide_eq_true hz) (hbits b hm)
        · rw [if_neg hb]
          obtain ⟨b, hrun, hiff⟩ := ih (stop - (page + 4096)) (by omega) (page + 4096) rfl
          refine ⟨b, hrun, hiff.trans ⟨fun h n hn => ?_, fun h n hn => ?_⟩⟩
          · cases n with
            | zero =>
              refine ⟨e, by rw [Nat.mul_zero, Nat.add_zero]; exact hl, fun b hm hz => hb ?_⟩
              exact List.any_eq_true.mpr ⟨b, hm, decide_eq_true hz⟩
            | succ n =>
              have he : page + 4096 * (n + 1) = page + 4096 + 4096 * n := by omega
              rw [he] at hn ⊢
              exact h n hn
          · have he : page + 4096 + 4096 * n = page + 4096 * (n + 1) := by omega
            rw [he] at hn ⊢
            exact h (n + 1) hn
    · rw [if_neg hp]
      exact ⟨true, rfl, fun _ n hn => absurd hn (by omega), fun _ => rfl⟩

/-- What the check establishes for every address of the range. -/
theorem usable_of_check (h : Laid m kroot hs) (hx : (t, some plan) ∈ hs) (hstop : ptr + len ≤ vaMax)
    (hu : pteU ∈ bits) (hbits : ∀ b ∈ bits, b = pteU ∨ b = pteW)
    (hck : ∀ n, ptr / pageSize * pageSize + 4096 * n < ptr + len →
      ∃ e, look (ptr / pageSize * pageSize + 4096 * n) 2 m t = some e ∧ ∀ b ∈ bits, e &&& b ≠ 0) :
    ∀ i < len, Usable m t bits (ptr + i) := by
  intro i hi
  have hpage : ptr / pageSize * pageSize + 4096 * ((ptr + i) / 4096 - ptr / 4096) =
      (ptr + i) / 4096 * 4096 := by
    unfold pageSize
    omega
  obtain ⟨e, hl, hb⟩ := hck ((ptr + i) / 4096 - ptr / 4096) (by rw [hpage]; omega)
  rw [hpage, look_page (by omega : (ptr + i) / 4096 * 4096 / 4096 = (ptr + i) / 4096)] at hl
  have hslot := user_slot (h.roots _ hx) h.kernel hl (hb _ hu)
  have hlow : ptr + i < vaMax := by omega
  obtain ⟨f, perm, hal, hleaf⟩ := (h.fits _ hx _ rfl).leaves _ hlow hslot e hl
  obtain ⟨hp, hpu, hpr, _⟩ := hal.bits
  refine ⟨hlow, hslot, e, f, perm, hl, hleaf, hp, hpu, hpr, fun b hm => ?_⟩
  have hflag : e &&& b = perm &&& b := by
    rcases hbits b hm with rfl | rfl <;> exact hleaf.flag hp (by decide) (by decide)
  rw [← hflag]
  exact hb b hm

theorem readBytes_eq (hd : Dirs 2 m t) (h : ∀ i < n, Usable m t bits (va + i)) :
    readBytes m t va n = .ok ((List.range n).map (fun i => m (reach m t (va + i))),
      (List.range n).map (fun i => reach m t (va + i))) := by
  induction n generalizing va with
  | zero => rfl
  | succ n ih =>
    have h0 := (h 0 (by omega)).access hd (.inl rfl)
    rw [Nat.add_zero] at h0
    have hrest := ih (fun i hi => by
      have := h (i + 1) (by omega)
      rwa [Nat.add_comm i 1, ← Nat.add_assoc] at this)
    have hshift : ∀ i, va + 1 + i = va + (i + 1) := by omega
    unfold readBytes
    rw [h0]
    dsimp only
    rw [hrest, ok_bind]
    simp only [List.range_succ_eq_map, List.map_cons, List.map_map, Nat.add_zero]
    simp only [Function.comp_def, Nat.succ_eq_add_one, hshift]

/-- The write loop changes the bytes behind the range and nothing else. -/
theorem writeBytes_spec {L : Layout} {pool : PagePool L.allocStart} (h : Spaces pool P kroot hs) (hx : (t, some plan) ∈ hs)
    (hw : pteW ∈ bits) (hu : ∀ i < src.length, Usable P.mem t bits (va + i)) :
    ∃ m', writeBytes t P.mem va src =
        .ok (m', (List.range src.length).map (fun i => reach P.mem t (va + i))) ∧
      Spaces pool { P with mem := m' } kroot hs ∧
      (∀ q ∈ tables P.mem kroot hs, SameOn P.mem m' q 4096) ∧
      (∀ i (hi : i < src.length), m' (reach P.mem t (va + i)) = src[i]) ∧
      ∀ x, (∀ i < src.length, x ≠ reach P.mem t (va + i)) → m' x = P.mem x := by
  induction src generalizing P va with
  | nil =>
    exact ⟨P.mem, rfl, h, fun _ _ => SameOn.refl _ _ _, fun i hi => absurd hi (Nat.not_lt_zero i),
      fun _ _ => rfl⟩
  | cons b bs ih =>
    have h0 := hu 0 (Nat.zero_lt_succ _)
    rw [Nat.add_zero] at h0
    have hacc := h0.access ((h.roots _ hx).dirs_all h.kernel) (.inr ⟨rfl, hw⟩)
    obtain ⟨hfr, hle⟩ := h0.frame
    have hmod : va % 4096 < 4096 := Nat.mod_lt _ (by decide)
    obtain ⟨hsp, hoff⟩ := h.poke hx hfr (Nat.sub_le _ _) (by omega) b
    have htab : ∀ q ∈ tables P.mem kroot hs, SameOn P.mem (poke P.mem (reach P.mem t va) b) q 4096 := by
      intro q hq
      refine hoff q (h.pool.mem (tables_claimed hq)) ?_
      rintro rfl
      exact h.not_frame hq hx hfr
    obtain ⟨_, _, htabs⟩ := h.toLaid.congr htab
    have hut : ∀ q ∈ userTabs P.mem t, SameOn P.mem (poke P.mem (reach P.mem t va) b) q 4096 :=
      fun q hq => htab q (List.mem_append_right _ (List.mem_flatMap.mpr ⟨_, hx, hq⟩))
    have hlater : ∀ i, i < bs.length → Usable P.mem t bits (va + 1 + i) := by
      intro i hi
      have := hu (i + 1) (Nat.succ_lt_succ hi)
      rwa [Nat.add_comm i 1, ← Nat.add_assoc] at this
    have hreach : ∀ i, i < bs.length →
        reach (poke P.mem (reach P.mem t va) b) t (va + 1 + i) = reach P.mem t (va + 1 + i) :=
      fun i hi => ((hlater i hi).congr hut).2
    obtain ⟨m', hrun, hsp', htab', hin, hout⟩ :=
      ih (P := { P with mem := poke P.mem (reach P.mem t va) b }) hsp
        (fun i hi => ((hlater i hi).congr hut).1)
    dsimp only at hrun hsp' htab' hin hout
    have hshift : ∀ i, va + 1 + i = va + (i + 1) := by omega
    refine ⟨m', ?_, hsp', fun q hq => (htab q hq).trans (htab' q (by rw [htabs]; exact hq)), ?_, ?_⟩
    · unfold writeBytes
      rw [hacc]
      dsimp only
      rw [hrun, ok_bind]
      simp only [List.length_cons, List.range_succ_eq_map, List.map_cons, List.map_map, Nat.add_zero,
        Function.comp_def, Nat.succ_eq_add_one, Except.ok.injEq, Prod.mk.injEq, List.cons.injEq,
        true_and]
      refine List.map_congr_left (fun i hi => ?_)
      rw [hreach i (List.mem_range.mp hi), hshift]
    · intro i hi
      cases i with
      | zero =>
        rw [Nat.add_zero, List.getElem_cons_zero, hout _ ?_]
        · unfold poke
          exact if_pos rfl
        · intro i hi
          rw [hreach i hi]
          intro he
          have := reach_inj (h.frames_nodup hx) h0 (hlater i hi) he
          omega
      | succ i =>
        have hi' : i < bs.length := Nat.lt_of_succ_lt_succ hi
        have := hin i hi'
        rw [hreach i hi', hshift] at this
        rw [List.getElem_cons_succ]
        exact this
    · intro x hne
      rw [hout x ?_]
      · unfold poke
        have := hne 0 (Nat.zero_lt_succ _)
        rw [Nat.add_zero] at this
        exact if_neg this
      · intro i hi
        rw [hreach i hi, hshift]
        exact hne (i + 1) (Nat.succ_lt_succ hi)

end Osmium.Syscall

namespace Osmium
open Lib Vm

variable {T : Type} {L : Layout} {pool : PagePool L.allocStart}

/-- The machine's memory is divided among the given tables and payloads. -/
def Owns {L : Layout} (pool : PagePool L.allocStart) (s : Sys T) (hs : List Holding) (live : List Heap.Live) : Prop :=
  Estate pool s.kernelRoot s.phys s.heap hs live

/-- The heap's bytes alone may differ. -/
def HeapOnly (L : Layout) (m m' : Mem) : Prop :=
  ∀ c k, Apart L.heapStart heapSize c k → SameOn m m' c k

theorem HeapOnly.page {m m' : Mem} (h : HeapOnly L m m') (hq : q ∈ pool.pages) : SameOn m m' q 4096 :=
  h q 4096 (heap_apart hq)

theorem request_eq (h : Heap.request size k = .ok r) : r.size = size ∧ r.align = 2 ^ k := by
  unfold Heap.request at h
  split at h
  · obtain rfl := Except.ok.inj h
    exact ⟨rfl, rfl⟩
  · cases h

/-- The global allocator's answer, taken apart. -/
theorem Sys.alloc_eq {s s' : Sys T} (h : s.alloc size k = .ok (p, s')) :
    ∃ r m' h', Heap.request size k = .ok r ∧ r.size = size ∧
      Heap.allocInner s.phys.mem s.heap r = .ok (some p, m', h') ∧
      s' = { s with phys := { s.phys with mem := m' }, heap := h' } := by
  simp only [Sys.alloc, bind_ok] at h
  obtain ⟨r, hr, ⟨o, m', h'⟩, ha, h⟩ := h
  cases o with
  | none => cases h
  | some q =>
    obtain ⟨rfl, rfl⟩ := Prod.mk.inj (Except.ok.inj h)
    exact ⟨r, m', h', hr, (request_eq hr).1, ha, rfl⟩

namespace Owns

variable {s s' : Sys T}

theorem perm (h : Owns pool s hs live) (hp : hs.Perm hs') (hl : live.Perm live') :
    Owns pool s hs' live' := Estate.perm h hp hl

theorem alloc (h : Owns pool s hs live) (run : s.alloc size k = .ok (p, s')) :
    Owns pool s' hs (⟨p, size⟩ :: live) ∧ HeapOnly L s.phys.mem s'.phys.mem ∧
      p % 2 ^ k = 0 ∧ L.heapStart + 16 ≤ p ∧ p + size ≤ L.heapStart + heapSize := by
  obtain ⟨r, m', h', hr, hz, ha, rfl⟩ := Sys.alloc_eq run
  obtain ⟨_, _, hout, hal, hlo, hhi⟩ := h.heap.alloc_some ha
  have he := Estate.alloc h ha
  rw [hz] at he hhi
  rw [(request_eq hr).2] at hal
  exact ⟨he, hout, hal, hlo, hhi⟩

theorem dealloc (h : Owns pool s hs (a :: live)) (run : s.dealloc a.ptr = .ok s') :
    Owns pool s' hs live ∧ HeapOnly L s.phys.mem s'.phys.mem := by
  obtain ⟨m', h', hr, hcar, _, hout⟩ := h.heap.free
  simp only [Sys.dealloc, bind_ok] at run
  obtain ⟨⟨m₁, h₁⟩, hr', he⟩ := run
  obtain ⟨rfl, rfl⟩ := Prod.mk.inj (Except.ok.inj (hr.symm.trans hr'))
  obtain rfl := Except.ok.inj he
  exact ⟨Estate.heaped h hout hcar, hout⟩

theorem dealloc_total (h : Owns pool s hs (a :: live)) : ∃ s', s.dealloc a.ptr = .ok s' := by
  obtain ⟨m', h', hr, _⟩ := h.heap.free
  exact ⟨_, by rw [Sys.dealloc, hr]; rfl⟩

/-- Only pages change. -/
theorem pages (h : Owns pool s hs live) (hsp : Spaces pool P s.kernelRoot hs')
    (hw : WritesIn s.phys.mem P.mem pool.pages) : Owns pool { s with phys := P } hs' live :=
  Estate.pages h hsp hw

end Owns
end Osmium

namespace Osmium.Syscall
open Lib Vm Sv39

variable {T : Type} {L : Layout} {pool : PagePool L.allocStart} {s : Sys T}

/-- The block behind a buffer of the given capacity. -/
def bufBlock (len : Nat) (buf : Option Nat) : List Heap.Live := (buf.map (fun p => ⟨p, len⟩)).toList

/-- The calling process's table is the active one, and it is accounted for. -/
structure Caller {L : Layout} (pool : PagePool L.allocStart) (s : Sys T) (hs : List Holding) (live : List Heap.Live)
    (t : Nat) (plan : Plan) : Prop where
  owns : Owns pool s hs live
  held : (t, some plan) ∈ hs
  root : Proc.currentRoot s = t
  satp : s.hart.satp = t

theorem withCapacity_owns (h : Owns pool s hs live) (run : withCapacity s len = .ok (buf, s')) :
    Owns pool s' hs (bufBlock len buf ++ live) ∧ HeapOnly L s.phys.mem s'.phys.mem := by
  unfold withCapacity at run
  split at run
  · obtain ⟨rfl, rfl⟩ := Prod.mk.inj (Except.ok.inj run)
    exact ⟨h, fun _ _ _ => SameOn.refl _ _ _⟩
  · simp only [bind_ok, Except.ok.injEq, Prod.mk.injEq] at run
    obtain ⟨⟨p, s₁⟩, ha, rfl, rfl⟩ := run
    obtain ⟨ho, hh, _⟩ := h.alloc ha
    exact ⟨ho, hh⟩

/-- The range lies in the lower half and all its pages carry the given bits. -/
def Ready (m : Mem) (t : Nat) (bits : List Nat) (ptr len : Nat) : Prop :=
  ptr + len ≤ vaMax ∧ ∀ n, ptr / pageSize * pageSize + 4096 * n < ptr + len →
    ∃ e, look (ptr / pageSize * pageSize + 4096 * n) 2 m t = some e ∧ ∀ b ∈ bits, e &&& b ≠ 0

namespace Caller

theorem laid (h : Caller pool s hs live t plan) : Laid s.phys.mem s.kernelRoot hs :=
  h.owns.spaces.toLaid

theorem dirs (h : Caller pool s hs live t plan) : Dirs 2 s.phys.mem t :=
  (h.laid.roots _ h.held).dirs_all h.laid.kernel

theorem tabs_page (h : Caller pool s hs live t plan) (hq : q ∈ userTabs s.phys.mem t) :
    q ∈ pool.pages :=
  h.owns.spaces.pool.mem (tables_claimed
    (List.mem_append_right _ (List.mem_flatMap.mpr ⟨_, h.held, hq⟩)))

theorem frame_page (h : Caller pool s hs live t plan) (hq : q ∈ userFrames s.phys.mem t) :
    q ∈ pool.pages :=
  h.owns.spaces.pool.mem
    (List.mem_append_right _ (List.mem_flatMap.mpr ⟨_, h.held, userFrames_owned hq⟩))

theorem ready (h : Caller pool s hs live t plan) (hu : pteU ∈ bits)
    (hbits : ∀ b ∈ bits, b = pteU ∨ b = pteW) (hr : Ready s.phys.mem t bits ptr len) :
    ∀ i < len, Usable s.phys.mem t bits (ptr + i) :=
  usable_of_check h.laid h.held hr.1 hu hbits hr.2

/-- The heap's bytes are none of the process's. -/
theorem heap_read (h : Caller pool s hs live t plan) (hh : HeapOnly L s.phys.mem m')
    (hu : Usable s.phys.mem t bits va) :
    Usable m' t bits va ∧ reach m' t va = reach s.phys.mem t va ∧
      m' (reach s.phys.mem t va) = s.phys.mem (reach s.phys.mem t va) := by
  obtain ⟨h1, h2⟩ := hu.congr (fun q hq => hh.page (h.tabs_page hq))
  obtain ⟨hf, hle⟩ := hu.frame
  have hmod : va % 4096 < 4096 := Nat.mod_lt _ (by decide)
  exact ⟨h1, h2, hh.page (h.frame_page hf) _ (Nat.sub_le _ _) (by omega)⟩

end Caller

/-- The two tests in front of every copy. -/
theorem check_ready (P : Phys) (t : Nat) (bits : List Nat) (ptr len : Nat) :
    (¬Ready P.mem t bits ptr len ∧ (rangeEnd ptr len = none ∨ ∃ stop, rangeEnd ptr len = some stop ∧
      checkPages P t bits stop (ptr / pageSize * pageSize) = .ok false)) ∨
    (Ready P.mem t bits ptr len ∧ rangeEnd ptr len = some (ptr + len) ∧
      checkPages P t bits (ptr + len) (ptr / pageSize * pageSize) = .ok true) := by
  by_cases hr : ptr + len ≤ vaMax
  · have hend : rangeEnd ptr len = some (ptr + len) := by
      have hlt : ptr + len < 2 ^ 64 := by
        unfold vaMax at hr
        omega
      unfold rangeEnd
      rw [if_pos hlt, if_neg (by omega)]
    obtain ⟨b, hck, hiff⟩ := checkPages_spec P t bits hr (ptr / pageSize * pageSize)
    cases b with
    | true => exact .inr ⟨⟨hr, hiff.mp rfl⟩, hend, hck⟩
    | false => exact .inl ⟨fun h => Bool.noConfusion (hiff.mpr h.2), .inr ⟨_, hend, hck⟩⟩
  · refine .inl ⟨fun h => hr h.1, .inl ?_⟩
    unfold rangeEnd
    split
    · rw [if_pos (by omega)]
    · rfl

/-- `copy_from_user`: refuse, fail to find room, or return exactly the bytes
behind the range. -/
theorem copyFromUser_spec (h : Caller pool s hs live t plan) (ptr len : Nat) :
    (¬Ready s.phys.mem t [pteU] ptr len ∧ copyFromUser s ptr len = .ok ⟨none, [], s⟩) ∨
    (Ready s.phys.mem t [pteU] ptr len ∧
      ((∃ e, withCapacity s len = .error e ∧ copyFromUser s ptr len = .error e) ∨
        ∃ buf s', withCapacity s len = .ok (buf, s') ∧ copyFromUser s ptr len =
          .ok ⟨some ⟨(List.range len).map (fun i => s.phys.mem (reach s.phys.mem t (ptr + i))), buf⟩,
            (List.range len).map (fun i => reach s.phys.mem t (ptr + i)), s'⟩)) := by
  unfold copyFromUser
  rw [h.root]
  rcases check_ready s.phys t [pteU] ptr len with ⟨hn, hc | ⟨stop, he, hc⟩⟩ | ⟨hr, he, hc⟩
  · exact .inl ⟨hn, by rw [hc]⟩
  · refine .inl ⟨hn, ?_⟩
    rw [he]
    dsimp only
    rw [hc, ok_bind]
    rfl
  · refine .inr ⟨hr, ?_⟩
    rw [he]
    dsimp only
    rw [hc, ok_bind, if_pos rfl]
    cases hw : withCapacity s len with
    | error e => exact .inl ⟨e, rfl, rfl⟩
    | ok r =>
      obtain ⟨buf, s'⟩ := r
      refine .inr ⟨buf, s', rfl, ?_⟩
      obtain ⟨ho, hh⟩ := withCapacity_owns h.owns hw
      have huse := h.ready (by simp) (by simp) hr
      have hsat : s'.hart.satp = t := by rw [OnlyMem.withCapacity hw]; exact h.satp
      have hdirs := (ho.spaces.roots _ h.held).dirs_all ho.spaces.kernel
      rw [ok_bind]
      dsimp only
      rw [hsat, readBytes_eq hdirs (fun i hi => (h.heap_read hh (huse i hi)).1), ok_bind]
      have hpa : (List.range len).map (fun i => reach s'.phys.mem t (ptr + i)) =
          (List.range len).map (fun i => reach s.phys.mem t (ptr + i)) :=
        List.map_congr_left (fun i hi => (h.heap_read hh (huse i (List.mem_range.mp hi))).2.1)
      have hbytes : (List.range len).map (fun i => s'.phys.mem (reach s'.phys.mem t (ptr + i))) =
          (List.range len).map (fun i => s.phys.mem (reach s.phys.mem t (ptr + i))) := by
        refine List.map_congr_left (fun i hi => ?_)
        obtain ⟨_, h2, h3⟩ := h.heap_read hh (huse i (List.mem_range.mp hi))
        rw [h2, h3]
      rw [hpa, hbytes]

/-- `copy_to_user`: refuse, or write exactly the bytes behind the range. -/
theorem copyToUser_spec (h : Caller pool s hs live t plan) (ptr : Nat) (src : List UInt8) :
    (¬Ready s.phys.mem t [pteU, pteW] ptr src.length ∧
      copyToUser s ptr src = .ok ⟨none, [], s⟩) ∨
    (Ready s.phys.mem t [pteU, pteW] ptr src.length ∧
      ∃ m', copyToUser s ptr src = .ok ⟨some src.length,
          (List.range src.length).map (fun i => reach s.phys.mem t (ptr + i)),
          { s with phys := { s.phys with mem := m' } }⟩ ∧
        Owns pool { s with phys := { s.phys with mem := m' } } hs live ∧
        (∀ q ∈ tables s.phys.mem s.kernelRoot hs, SameOn s.phys.mem m' q 4096) ∧
        (∀ i (hi : i < src.length), m' (reach s.phys.mem t (ptr + i)) = src[i]) ∧
        ∀ x, (∀ i < src.length, x ≠ reach s.phys.mem t (ptr + i)) → m' x = s.phys.mem x) := by
  unfold copyToUser
  rw [h.root]
  rcases check_ready s.phys t [pteU, pteW] ptr src.length with ⟨hn, hc | ⟨stop, he, hc⟩⟩ | ⟨hr, he, hc⟩
  · exact .inl ⟨hn, by rw [hc]⟩
  · refine .inl ⟨hn, ?_⟩
    rw [he]
    dsimp only
    rw [hc, ok_bind]
    rfl
  · refine .inr ⟨hr, ?_⟩
    have huse := h.ready (by simp) (by simp) hr
    obtain ⟨m', hrun, hsp, htab, hin, hout⟩ :=
      writeBytes_spec h.owns.spaces h.held (by simp) huse
    refine ⟨m', ?_, ⟨hsp, h.owns.heap.outside ?_⟩, htab, hin, hout⟩
    · rw [he]
      dsimp only
      rw [hc, ok_bind, if_pos rfl, h.satp, hrun]
      rfl
    · -- the bytes written lie in pages, the heap does not
      intro x hl hu
      refine hout x (fun i hi hx => ?_)
      obtain ⟨hf, hle⟩ := (huse i hi).frame
      have hap := heap_apart (h.frame_page hf)
      have hmod : (ptr + i) % 4096 < 4096 := Nat.mod_lt _ (by decide)
      unfold Apart at hap
      omega

end Osmium.Syscall
