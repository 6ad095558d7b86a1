import Osmium.Proofs.Ledger

namespace Osmium
open Lib Vm

/-- Only an allocator without anything left to give stops the kernel here. -/
def Lack (e : Panic) : Prop := e = .outOfHeap ∨ e = .outOfPages

/-- Nothing of what the given assets hold changes, nor the kernel's table or its
image. -/
structure Leaves {T : Type} (E : Env) (as : List Asset) (s s' : Sys T) : Prop where
  root : s'.kernelRoot = s.kernelRoot
  held : ∀ q ∈ claimed s.phys.mem s.kernelRoot (as.flatMap (Asset.holdings E)),
    SameOn s.phys.mem s'.phys.mem q 4096
  image : ∀ x < E.heapStart, s'.phys.mem x = s.phys.mem x

namespace Leaves

variable {T : Type} {E : Env} {pool : PagePool E.allocStart} {s s₁ s' : Sys T} {as as' : List Asset}

theorem same (hr : s'.kernelRoot = s.kernelRoot) (hm : s'.phys.mem = s.phys.mem) :
    Leaves E as s s' := by
  refine ⟨hr, fun q _ => ?_, fun x _ => ?_⟩
  · rw [hm]
    exact .refl _ _ _
  · rw [hm]

theorem trans (h : Leaves E as s s₁) (h' : Leaves E as s₁ s') : Leaves E as s s' where
  root := h'.root.trans h.root
  held q hq := by
    refine (h.held q hq).trans (h'.held q ?_)
    rw [h.root, claimed_congr (fun q hq => h.held q (tables_claimed hq))]
    exact hq
  image x hx := (h'.image x hx).trans (h.image x hx)

theorem mono (h : Leaves E as s s') (hsub : ∀ a ∈ as', a ∈ as) : Leaves E as' s s' where
  root := h.root
  held q hq := by
    refine h.held q ?_
    rcases List.mem_append.mp hq with hq | hq
    · exact List.mem_append_left _ hq
    · refine List.mem_append_right _ ?_
      obtain ⟨x, hx, hq⟩ := List.mem_flatMap.mp hq
      obtain ⟨a, ha, hx⟩ := List.mem_flatMap.mp hx
      exact List.mem_flatMap.mpr ⟨x, List.mem_flatMap.mpr ⟨a, hsub a ha, hx⟩, hq⟩
  image := h.image

theorem of_spared (h : Spared pool s.kernelRoot (as.flatMap (Asset.holdings E)) s.phys.mem P.mem) :
    Leaves E as s { s with phys := P } where
  root := rfl
  held := h.held
  image x hx := by
    refine h.outside x (fun p hp hin => ?_)
    have habove := pool.above p hp
    unfold Layout.allocStart at habove
    omega

theorem of_heap (hb : Books E pool s as) (hr : s'.kernelRoot = s.kernelRoot)
    (h : HeapOnly E.toLayout s.phys.mem s'.phys.mem) : Leaves E as s s' where
  root := hr
  held _ hq := h.page (hb.owns.spaces.pool.mem hq)
  image x hx := h x 1 (.inr hx) x (Nat.le_refl _) (Nat.lt_succ_self _)

end Leaves

namespace Vm

variable {L : Layout} {pool : PagePool L.allocStart}

theorem vpn_user (hl : userText ≤ va) (hu : va < 0x80000000) :
    vpn va 2 = userL2Index ∧ va < vaMax := by
  rw [vpn_two]
  show va / 1073741824 % 512 = 1 ∧ va < 274877906944
  unfold userText at hl
  omega

namespace Spaces

theorem make_ends (h : Spaces pool P kroot hs) :
    Ends (fun e => e = .outOfPages ∧ P.freePages = 0) (makeUserTable P kroot) (fun r =>
      Spaces pool r.2 kroot ((r.1, some .empty) :: hs) ∧ Spared pool kroot hs P.mem r.2.mem ∧
        r.2.freePages + 1 = P.freePages) := by
  have hk := tables_claimed (kroot_tables P.mem kroot hs)
  refine ⟨fun hr => ?_, fun he => ?_⟩
  rotate_left
  · have hz : P.freePages = 0 := by
      by_contra hn
      obtain ⟨t, P', ht⟩ := makeUserTable_total h.pool hk h.kernel.slot (Nat.pos_of_ne_zero hn)
      rw [ht] at he
      cases he
    exact ⟨makeUserTable_error h.pool hk h.kernel.slot he, hz⟩
  · obtain ⟨h1, h2⟩ := h.make hr
    exact ⟨h1, h2, (makeUserTable_spec h.pool hk h.kernel.slot hr).2.2.2.2.2⟩

end Spaces

/-- A page with the given contents was hung into a process's table. -/
structure Hung {L : Layout} (pool : PagePool L.allocStart) (kroot : Nat) (hs : List Holding) (P P' : Phys)
    (t va perm : Nat) (fill : Phys → Nat → Mem) : Prop where
  spared : Spared pool kroot hs P.mem P'.mem
  count : P'.freePages + (1 + missing va 2 P.mem t) = P.freePages
  added : ∃ dst P₁, allocPage P = .ok (dst, P₁) ∧ Added P.mem (fill P₁ dst) P'.mem t va dst perm

theorem Hung.few {fill : Phys → Nat → Mem} (h : Hung pool kroot hs P P' t va perm fill) :
    P.freePages ≤ P'.freePages + 3 := by
  have hc := h.count
  have hm := missing_le va 2 P.mem t
  omega

theorem Spaces.add_ends (h : Spaces pool P kroot ((t, some plan) :: hs)) (hlo : userText ≤ va)
    (hhi : va < 0x80000000) (hal : va % 4096 = 0) (hflags : flags < 256)
    (hperm : flags &&& permMask ≠ 0) (hnone : look va 2 P.mem t = none) (fill : Phys → Nat → Mem)
    (hfill : ∀ P₁ dst, WritesIn P₁.mem (fill P₁ dst) [dst])
    (hfits : ∀ m₁ m' dst, Added P.mem m₁ m' t va dst flags → Fits m' t plan') :
    Ends (fun e => e = .outOfPages ∧ P.freePages ≤ missing va 2 P.mem t)
      (do
        let (dst, P₁) ← allocPage P
        mapPages { P₁ with mem := fill P₁ dst } t va dst pageSize flags)
      (fun P' => Spaces pool P' kroot ((t, some plan') :: hs) ∧
        Hung pool kroot hs P P' t va flags fill) := by
  obtain ⟨hu, hva⟩ := vpn_user hlo hhi
  have hpool := h.pool.perm (claimed_cons P.mem kroot (t, some plan) hs)
  refine (add_page_ends hpool hu hva hal hperm hnone).bind ?_
  rintro ⟨dst, P₁⟩ ha hm
  refine ((hm _ (hfill P₁ dst)).and (fun P' run => ?_)).mono (fun P' hP => hP.2)
  obtain ⟨hadd, hw, hcount, hsp⟩ := h.add ha (hfill P₁ dst) run hu hflags
  exact ⟨hsp (hfits _ _ _ hadd), hw, hcount, dst, P₁, ha, hadd⟩

namespace Fits

/-- An address the plan has no place for is not mapped. -/
theorem unmapped (h : Fits m t plan) (hlo : userText ≤ va) (hhi : va < 0x80000000)
    (hn : ∀ perm, ¬plan.Allows va perm) : look va 2 m t = none := by
  obtain ⟨hu, hva⟩ := vpn_user hlo hhi
  cases hl : look va 2 m t with
  | none => rfl
  | some e =>
    obtain ⟨_, perm, hp, _⟩ := h.leaves va hva hu e hl
    exact absurd hp (hn perm)

/-- The next page of text. -/
theorem add_text (h : Fits m t ⟨n, false, userHeapBase⟩)
    (hn : (n + 1) * pageSize ≤ userHeapBase - userText)
    (ha : Added m m₁ m' t (userText + n * pageSize) dst textPerm) :
    Fits m' t ⟨n + 1, false, userHeapBase⟩ := by
  refine h.add ha hn (fun v hv => .inl ⟨?_, rfl⟩) (fun v p hp => ?_) (fun v hv => ?_)
  · have hv : v / 4096 = (0x40000000 + n * 4096) / 4096 := hv
    show 0x40000000 ≤ v ∧ v < 0x40000000 + (n + 1) * 4096
    omega
  · rcases hp with ⟨hp, rfl⟩ | ⟨hp, rfl⟩
    · exact .inl ⟨⟨hp.1, Nat.lt_of_lt_of_le hp.2
        (Nat.add_le_add_left (Nat.mul_le_mul_right _ (Nat.le_succ n)) _)⟩, rfl⟩
    · exact .inr ⟨hp, rfl⟩
  · rcases hv with hv | ⟨hv, _⟩
    · have hv : 0x40000000 ≤ v ∧ v < 0x40000000 + (n + 1) * 4096 := hv
      by_cases ho : v < 0x40000000 + n * 4096
      · exact .inl (.inl ⟨hv.1, ho⟩)
      · refine .inr ?_
        show v / 4096 = (0x40000000 + n * 4096) / 4096
        omega
    · cases hv

/-- The stack page. -/
theorem add_stack (h : Fits m t ⟨n, false, userHeapBase⟩)
    (ha : Added m m₁ m' t (userStackTop - pageSize) dst dataPerm) :
    Fits m' t ⟨n, true, userHeapBase⟩ := by
  have hpage : ∀ v, v / 4096 = (userStackTop - pageSize) / 4096 ↔
      userStackTop - pageSize ≤ v ∧ v < userStackTop := by
    intro v
    unfold userStackTop pageSize
    omega
  refine h.add ha h.short (fun v hv => .inr ⟨.inl ⟨rfl, (hpage v).mp hv⟩, rfl⟩) (fun v p hp => ?_)
    (fun v hv => ?_)
  · rcases hp with hp | ⟨⟨hp, _⟩ | hp, rfl⟩
    · exact .inl hp
    · cases hp
    · exact .inr ⟨.inr hp, rfl⟩
  · rcases hv with hv | ⟨_, hv⟩
    · exact .inl (.inl hv)
    · exact .inr ((hpage v).mpr hv)

/-- A heap page below the break. -/
theorem add_heap (h : Fits m t plan) (hlo : userHeapBase ≤ va) (hb : va / pageSize * pageSize < plan.brk)
    (hal : va % 4096 = 0) (ha : Added m m₁ m' t va dst dataPerm) : Fits m' t plan := by
  refine h.add ha h.short (fun v hv => .inr ⟨.inr ⟨?_, ?_⟩, rfl⟩) (fun v p hp => hp)
    (fun v hv => .inl hv)
  · unfold userHeapBase at *
    omega
  · unfold pageSize at *
    rw [hv]
    exact hb

end Fits
end Vm

namespace Books

variable {T : Type} {E : Env} {pool : PagePool E.allocStart} {s s' : Sys T} {as : List Asset}

theorem npages_fits (E : Env) (prog : Program) :
    0 < Proc.npages E prog ∧ Proc.npages E prog * pageSize ≤ userStackTop - pageSize - userText := by
  obtain ⟨h1, h2⟩ := E.image_fits prog
  unfold Proc.npages userText userStackTop pageSize at *
  omega

/-- A page of a program's image, copied into a page just taken. -/
def imagePage (E : Env) (prog : Program) (n : Nat) (P : Phys) (dst : Nat) : Mem :=
  copy P.mem ((E.image prog).1 + n * pageSize) dst (min ((E.image prog).2 - n * pageSize) pageSize)

theorem load_page (h : Books E pool s (.table t (some ⟨n, false, userHeapBase⟩) :: as))
    (hn : n < Proc.npages E prog) :
    Ends (fun e => e = .outOfPages ∧ s.phys.freePages < 3) (Proc.loadPage E s.phys prog t n)
      (fun P => Books E pool { s with phys := P }
        (.table t (some ⟨n + 1, false, userHeapBase⟩) :: as) ∧
        Hung pool s.kernelRoot (as.flatMap (Asset.holdings E)) s.phys P t (userText + n * pageSize)
          textPerm (imagePage E prog n)) := by
  have hsp : Spaces pool s.phys s.kernelRoot ((t, some ⟨n, false, userHeapBase⟩) :: _) := h.owns.spaces
  have hfit := hsp.fits _ List.mem_cons_self _ rfl
  have hmax : Proc.npages E prog * 4096 ≤ 0xfff000 := (npages_fits E prog).2
  have hlast : (n + 1) * 4096 ≤ 0xfff000 := Nat.le_trans (Nat.mul_le_mul_right _ hn) hmax
  have hshort : (n + 1) * 4096 ≤ 0x10000000 := Nat.le_trans hlast (by decide)
  have hva : userText + n * pageSize < 0x80000000 := by
    show 0x40000000 + n * 4096 < 0x80000000
    omega
  have hnone := hfit.unmapped (Nat.le_add_right _ _) hva (by
    rintro perm (⟨⟨_, hp⟩, _⟩ | ⟨⟨hp, _⟩ | ⟨hp, _⟩, _⟩)
    · exact Nat.lt_irrefl _ hp
    · cases hp
    · have hp : 0x50000000 ≤ 0x40000000 + n * 4096 := hp
      omega)
  have hadd := hsp.add_ends (Nat.le_add_right _ _) hva
    (show (0x40000000 + n * 4096) % 4096 = 0 by omega) (by decide) (by decide) hnone
    (imagePage E prog n) (fun P₁ dst => copy_writesIn _ _ _ _ (Nat.min_le_right _ _))
    (fun _ _ _ ha => hfit.add_text hshort ha)
  have hgap := missing_le (userText + n * pageSize) 2 s.phys.mem t
  refine ⟨fun run => ?_, fun he => ?_⟩
  · obtain ⟨hs', hung⟩ := hadd.result run
    exact ⟨h.pages hs' hung.spared.outside rfl rfl, hung⟩
  · obtain ⟨h1, h2⟩ := hadd.failure he
    exact ⟨h1, by omega⟩

theorem load_stack (h : Books E pool s (.table t (some ⟨Proc.npages E prog, false, userHeapBase⟩) :: as)) :
    Ends (fun e => e = .outOfPages ∧ s.phys.freePages < 3)
      (do
        let (stack, P) ← allocPage s.phys
        mapPages P t (userStackTop - pageSize) stack pageSize dataPerm)
      (fun P => Books E pool { s with phys := P }
        (.table t (some ⟨Proc.npages E prog, true, userHeapBase⟩) :: as) ∧
        Hung pool s.kernelRoot (as.flatMap (Asset.holdings E)) s.phys P t (userStackTop - pageSize)
          dataPerm (fun P₁ _ => P₁.mem)) := by
  have hsp : Spaces pool s.phys s.kernelRoot
    ((t, some ⟨Proc.npages E prog, false, userHeapBase⟩) :: _) := h.owns.spaces
  have hfit := hsp.fits _ List.mem_cons_self _ rfl
  have hmax : Proc.npages E prog * 4096 ≤ 0xfff000 := (npages_fits E prog).2
  have hnone : look (userStackTop - pageSize) 2 s.phys.mem t = none := hfit.unmapped (by decide) (by decide) (by
    rintro perm (⟨⟨_, hp⟩, _⟩ | ⟨⟨hp, _⟩ | ⟨hp, _⟩, _⟩)
    · have hp : 0x40fff000 < 0x40000000 + Proc.npages E prog * 4096 := hp
      omega
    · cases hp
    · exact absurd hp (by decide))
  have hadd := hsp.add_ends (by decide) (by decide) (by decide) (by decide) (by decide) hnone
    (fun P₁ _ => P₁.mem) (fun P₁ dst => .refl _ _) (fun _ _ _ ha => hfit.add_stack ha)
  have hgap := missing_le (userStackTop - pageSize) 2 s.phys.mem t
  refine ⟨fun run => ?_, fun he => ?_⟩
  · obtain ⟨hs', hung⟩ := hadd.result run
    exact ⟨h.pages hs' hung.spared.outside rfl rfl, hung⟩
  · obtain ⟨h1, h2⟩ := hadd.failure he
    exact ⟨h1, by omega⟩

end Books
end Osmium
