import Osmium.Proofs.Grow

namespace Osmium
open Lib Vm

variable {T : Type} {E : Env} {pool : PagePool E.allocStart} {s : Sys T} {as : List Asset}

/-- The kernel's image, below the heap, is not the allocator's to give. -/
theorem Vm.Spared.image (h : Spared pool kroot hs m m') (hx : x < E.allocStart) : m' x = m x := by
  refine h.outside x (fun p hp hin => ?_)
  have := pool.above p hp
  omega

/-- Byte `x` of page `i` of a program's text; what is behind the image is zero. -/
def textByte (E : Env) (prog : Program) (m : Mem) (i x : Nat) : UInt8 :=
  if i * pageSize + x < (E.image prog).2 then m ((E.image prog).1 + i * pageSize + x) else 0

theorem textByte_congr (hs : Spared pool kroot hs m m') (prog : Program) (i x : Nat) :
    textByte E prog m' i x = textByte E prog m i x := by
  have hend := (E.images prog).2
  have hrange := E.allocStart_eq
  have hu := E.user
  have hr := E.rodata
  have hd := E.data
  unfold textByte
  split
  · exact hs.image (by omega)
  · rfl

/-- The frame behind a page of a process, with its permissions and its bytes. -/
structure Page (m : Mem) (t va perm : Nat) (byte : Nat → UInt8) (f : Nat) : Prop where
  aligned : f % 4096 = 0
  bound : f < 2 ^ 32
  look : look va 2 m t = some (paToPte f ||| leafFlags perm)
  bytes : ∀ x < 4096, m (f + x) = byte x

/-- Another page leaves the pages that are there alone. -/
theorem Page.add (h : Page m t va perm byte f) (ha : Added m m₁ m' t vb dst perm')
    (hu : vpn va 2 = userL2Index) (hva : va < vaMax) (hperm : perm < 256)
    (hne : va / 4096 ≠ vb / 4096) : Page m' t va perm byte f := by
  refine ⟨h.aligned, h.bound, ?_, fun x hx => ?_⟩
  · rw [ha.looks va hva hu, if_neg hne]
    exact h.look
  · have hmem := look_userFrame hu h.look
    rw [(leaf_pte h.aligned (Nat.lt_trans h.bound (by decide)) hperm).2.1] at hmem
    rw [ha.kept f hmem (f + x) (by omega) (by omega)]
    exact h.bytes x hx

theorem Page.new (ha : Added m m₁ m' t va dst perm) (hu : vpn va 2 = userL2Index) (hva : va < vaMax)
    (hb : ∀ x < 4096, m₁ (dst + x) = byte x) : Page m' t va perm byte dst := by
  refine ⟨ha.aligned, ha.bound, ?_, fun x hx => ?_⟩
  · rw [ha.looks va hva hu, if_pos rfl]
  · rw [ha.content (dst + x) (by omega) (by omega)]
    exact hb x hx

/-- The first `n` pages of a program are in place, and the stack page if there is
one already; everybody else's memory is what it was before the load began. -/
structure Filling (E : Env) (pool : PagePool E.allocStart) (prog : Program) (s : Sys T)
    (as : List Asset) (t n : Nat) (stack : Bool) (P : Phys) : Prop where
  books : Books E pool { s with phys := P } (.table t (some ⟨n, stack, userHeapBase⟩) :: as)
  spared : Spared pool s.kernelRoot (as.flatMap (Asset.holdings E)) s.phys.mem P.mem
  text : ∀ i < n, ∃ f, Page P.mem t (userText + i * pageSize) textPerm
    (textByte E prog s.phys.mem i) f
  blank : stack = true → ∃ f, Page P.mem t (userStackTop - pageSize) dataPerm (fun _ => 0) f

namespace Filling

variable {P : Phys}

/-- The bytes of a page just taken and filled from the image. -/
theorem image_bytes (h : Filling E pool prog s as t n stack P) (ha : allocPage P = .ok (dst, P₁))
    (hx : x < 4096) : Books.imagePage E prog n P₁ dst (dst + x) = textByte E prog s.phys.mem n x := by
  have hpool := h.books.owns.spaces.pool
  obtain ⟨hp₁, _, hw, hz⟩ := hpool.alloc_some (allocPage_some ha)
  have habove := pool.above dst (hp₁.mem List.mem_cons_self)
  have hend := (E.images prog).2
  have hrange := E.allocStart_eq
  have hu := E.user
  have hr := E.rodata
  have hd := E.data
  unfold Books.imagePage textByte
  by_cases hin : n * pageSize + x < (E.image prog).2
  · rw [if_pos hin, copy_on _ _ _ _ (by unfold pageSize at hin ⊢; omega)]
    have hlow : (E.image prog).1 + n * pageSize + x < E.allocStart := by omega
    rw [hw _ (fun p hp hq => by rw [List.mem_singleton.mp hp] at hq; omega), h.spared.image hlow]
  · rw [if_neg hin, copy_off _ _ _ _ (dst + x) 1 (.inl (by unfold pageSize at hin ⊢; omega)) _
      (Nat.le_refl _) (Nat.lt_succ_self _)]
    exact hz _ (by omega) (by omega)

theorem page (h : Filling E pool prog s as t n false P) (hn : n < Proc.npages E prog) :
    Ends (fun e => e = .outOfPages ∧ P.freePages < 3) (Proc.loadPage E P prog t n)
      (fun P' => Filling E pool prog s as t (n + 1) false P' ∧ P.freePages ≤ P'.freePages + 3) := by
  refine ((h.books.load_page hn).mono fun P' ⟨hb', hung⟩ => ?_)
  obtain ⟨dst, P₁, ha, hadd⟩ := hung.added
  have hmax : Proc.npages E prog * 4096 ≤ 0xfff000 := (Books.npages_fits E prog).2
  have hpos : ∀ i < n + 1, userText ≤ userText + i * pageSize ∧
      userText + i * pageSize < 0x80000000 := by
    intro i hi
    show 0x40000000 ≤ 0x40000000 + i * 4096 ∧ 0x40000000 + i * 4096 < 0x80000000
    omega
  refine ⟨⟨hb', h.spared.trans hung.spared, fun i hi => ?_, nofun⟩, hung.few⟩
  obtain ⟨hu, hva⟩ := vpn_user (hpos i hi).1 (hpos i hi).2
  by_cases hlast : i = n
  · subst hlast
    exact ⟨dst, .new hadd hu hva fun x hx => h.image_bytes ha hx⟩
  · obtain ⟨f, hf⟩ := h.text i (by omega)
    refine ⟨f, hf.add hadd hu hva (by decide) ?_⟩
    show (0x40000000 + i * 4096) / 4096 ≠ (0x40000000 + n * 4096) / 4096
    omega

theorem stack (h : Filling E pool prog s as t (Proc.npages E prog) false P) :
    Ends (fun e => e = .outOfPages ∧ P.freePages < 3)
      (do
        let (stack, P) ← allocPage P
        mapPages P t (userStackTop - pageSize) stack pageSize dataPerm)
      (fun P' => Filling E pool prog s as t (Proc.npages E prog) true P' ∧
        P.freePages ≤ P'.freePages + 3) := by
  refine h.books.load_stack.mono fun P' hP => ?_
  obtain ⟨hb', hung⟩ := hP
  obtain ⟨dst, P₁, ha, hadd⟩ := hung.added
  have hmax : Proc.npages E prog * 4096 ≤ 0xfff000 := (Books.npages_fits E prog).2
  refine ⟨⟨hb', h.spared.trans hung.spared, fun i hi => ?_, fun _ => ⟨dst, ?_⟩⟩,
    hung.few⟩
  · obtain ⟨f, hf⟩ := h.text i hi
    obtain ⟨hu, hva⟩ := vpn_user (Nat.le_add_right userText (i * pageSize))
      (show 0x40000000 + i * 4096 < 0x80000000 by omega)
    refine ⟨f, hf.add hadd hu hva (by decide) ?_⟩
    show (0x40000000 + i * 4096) / 4096 ≠ 0x40fff000 / 4096
    omega
  · obtain ⟨hu, hva⟩ := vpn_user (show userText ≤ userStackTop - pageSize by decide) (by decide)
    obtain ⟨_, _, _, hz⟩ := h.books.owns.spaces.pool.alloc_some (allocPage_some ha)
    exact .new hadd hu hva fun x hx => hz _ (by omega) (by omega)

end Filling
end Osmium
