import Osmium.Proofs.Access
import Osmium.Proofs.Clone
import Osmium.Proofs.HeapRun

namespace Osmium.Vm
open Lib Sv39

abbrev textPerm : Nat := pteR ||| pteX ||| pteU
abbrev dataPerm : Nat := pteR ||| pteW ||| pteU

/-- What an address space is meant to hold: so many pages of text, perhaps the
stack page, and heap pages below the break. -/
structure Plan where
  text : Nat
  stack : Bool
  brk : Nat

namespace Plan

def inText (plan : Plan) (va : Nat) : Prop := userText ≤ va ∧ va < userText + plan.text * pageSize

def inStack (plan : Plan) (va : Nat) : Prop :=
  plan.stack = true ∧ userStackTop - pageSize ≤ va ∧ va < userStackTop

/-- The page of `va` meets the heap. -/
def inHeap (plan : Plan) (va : Nat) : Prop :=
  userHeapBase ≤ va ∧ va / pageSize * pageSize < plan.brk

/-- How a page may be mapped. -/
def Allows (plan : Plan) (va perm : Nat) : Prop :=
  plan.inText va ∧ perm = textPerm ∨ (plan.inStack va ∨ plan.inHeap va) ∧ perm = dataPerm

/-- An address space with nothing in it yet. -/
def empty : Plan := ⟨0, false, userHeapBase⟩

end Plan

/-- The user slot holds what the plan says: all of text and stack, of the heap
any pages, and nothing else, in no more tables than that takes. -/
structure Fits (m : Mem) (t : Nat) (plan : Plan) : Prop where
  short : plan.text * pageSize ≤ userHeapBase - userText
  leaves : ∀ va < vaMax, vpn va 2 = userL2Index → ∀ e, look va 2 m t = some e →
    ∃ f perm, plan.Allows va perm ∧ Leaf e f perm
  loaded : ∀ va < vaMax, vpn va 2 = userL2Index → plan.inText va ∨ plan.inStack va →
    look va 2 m t ≠ none
  tight : Tight m t

theorem Plan.Allows.bits {plan : Plan} (h : plan.Allows va perm) :
    perm < 256 ∧ perm &&& pteU ≠ 0 ∧ perm &&& pteR ≠ 0 ∧ perm &&& permMask = perm := by
  rcases h with ⟨_, rfl⟩ | ⟨_, rfl⟩ <;> decide

namespace Fits

theorem congr (h : Fits m t plan) (hs : ∀ q ∈ userTabs m t, SameOn m m' q 4096) :
    Fits m' t plan where
  short := h.short
  leaves va hva hu e he := h.leaves va hva hu e (by rwa [userLook_congr hs hu] at he)
  loaded va hva hu hl := by
    rw [userLook_congr hs hu]
    exact h.loaded va hva hu hl
  tight := h.tight.congr hs

theorem empty (h : child m t userL2Index = none) : Fits m t .empty where
  short := by decide
  tight := .bare h
  leaves va _ hu e he := by rw [look_bare h hu] at he; cases he
  loaded va _ _ hl := by
    rcases hl with ⟨h1, h2⟩ | ⟨h1, _⟩
    · have h2 : va < userText + 0 * pageSize := h2
      omega
    · cases h1

/-- One more page, where the new plan wants one. -/
theorem add (h : Fits m t plan) (ha : Added m m₁ m' t va dst perm)
    (hshort : plan'.text * pageSize ≤ userHeapBase - userText)
    (hnew : ∀ v, v / 4096 = va / 4096 → plan'.Allows v perm)
    (hold : ∀ v p, plan.Allows v p → plan'.Allows v p)
    (hload : ∀ v, plan'.inText v ∨ plan'.inStack v →
      (plan.inText v ∨ plan.inStack v) ∨ v / 4096 = va / 4096) : Fits m' t plan' where
  short := hshort
  leaves v hv hu e he := by
    rw [ha.looks v hv hu] at he
    split at he
    · rename_i hp
      exact ⟨dst, perm, hnew v hp, (Option.some.inj he).symm, ha.aligned, ha.bound⟩
    · obtain ⟨f, p, hp, hl⟩ := h.leaves v hv hu e he
      exact ⟨f, p, hold v p hp, hl⟩
  loaded v hv hu hl := by
    rw [ha.looks v hv hu]
    split
    · exact Option.some_ne_none _
    · rename_i hp
      exact h.loaded v hv hu ((hload v hl).resolve_right hp)
  tight := h.tight.add ha

/-- A higher break takes nothing away. -/
theorem grow (h : Fits m t plan) (hb : plan.brk ≤ brk) : Fits m t { plan with brk := brk } where
  short := h.short
  leaves v hv hu e he := by
    obtain ⟨f, p, hp, hl⟩ := h.leaves v hv hu e he
    refine ⟨f, p, ?_, hl⟩
    rcases hp with hp | ⟨hp | hp, rfl⟩
    · exact .inl hp
    · exact .inr ⟨.inl hp, rfl⟩
    · exact .inr ⟨.inr ⟨hp.1, Nat.lt_of_lt_of_le hp.2 hb⟩, rfl⟩
  loaded := h.loaded
  tight := h.tight

end Fits

/-- A process root somebody holds, with the plan of its address space. A table
about to be freed has none. -/
abbrev Holding := Nat × Option Plan

/-- Every page somebody holds. -/
def claimed (m : Mem) (kroot : Nat) (hs : List Holding) : List Nat :=
  tabs 3 m kroot ++ hs.flatMap (fun h => owned m h.1)

/-- The page tables among them. -/
def tables (m : Mem) (kroot : Nat) (hs : List Holding) : List Nat :=
  tabs 3 m kroot ++ hs.flatMap (fun h => userTabs m h.1)

/-- The kernel's table and the processes' tables are what they should be. -/
structure Laid (m : Mem) (kroot : Nat) (hs : List Holding) : Prop where
  kernel : KernelMap m kroot
  roots : ∀ h ∈ hs, UserRoot m kroot h.1
  fits : ∀ h ∈ hs, ∀ plan, h.2 = some plan → Fits m h.1 plan

theorem tables_claimed (h : q ∈ tables m kroot hs) : q ∈ claimed m kroot hs := by
  rcases List.mem_append.mp h with h | h
  · exact List.mem_append_left _ h
  · obtain ⟨x, hx, hq⟩ := List.mem_flatMap.mp h
    exact List.mem_append_right _ (List.mem_flatMap.mpr ⟨x, hx, userTabs_owned hq⟩)

theorem kroot_tables (m : Mem) (kroot : Nat) (hs : List Holding) : kroot ∈ tables m kroot hs :=
  List.mem_append_left _ (root_mem ..)

theorem claimed_congr (same : ∀ q ∈ tables m kroot hs, SameOn m m' q 4096) :
    claimed m' kroot hs = claimed m kroot hs := by
  unfold claimed
  rw [tabs, tree_congr (fun q hq => same q (List.mem_append_left _ hq))]
  exact congrArg _ (List.flatMap_congr (fun x hx => owned_congr (fun q hq =>
    same q (List.mem_append_right _ (List.mem_flatMap.mpr ⟨x, hx, hq⟩)))))

/-- Tables are determined by their own pages. -/
theorem Laid.congr (h : Laid m kroot hs) (same : ∀ q ∈ tables m kroot hs, SameOn m m' q 4096) :
    Laid m' kroot hs ∧ claimed m' kroot hs = claimed m kroot hs ∧
      tables m' kroot hs = tables m kroot hs := by
  have hk : ∀ q ∈ tabs 3 m kroot, SameOn m m' q 4096 :=
    fun q hq => same q (List.mem_append_left _ hq)
  have hu : ∀ x ∈ hs, ∀ q ∈ userTabs m x.1, SameOn m m' q 4096 :=
    fun x hx q hq => same q (List.mem_append_right _ (List.mem_flatMap.mpr ⟨x, hx, hq⟩))
  refine ⟨⟨h.kernel.congr hk, fun x hx => ?_, fun x hx plan hp => ?_⟩, claimed_congr same, ?_⟩
  · exact (h.roots x hx).congr (hk kroot (root_mem ..)) (hu x hx)
  · exact (h.fits x hx plan hp).congr (hu x hx)
  · unfold tables
    rw [tabs, tree_congr hk]
    exact congrArg _ (List.flatMap_congr (fun x hx => userTabs_congr (hu x hx)))

/-- Physical memory as the processes and the kernel share it. -/
structure Spaces {L : Layout} (pool : PagePool L.allocStart) (P : Phys) (kroot : Nat) (hs : List Holding) : Prop
    extends Laid P.mem kroot hs where
  pool : Pool pool P (claimed P.mem kroot hs)

theorem claimed_cons (m : Mem) (kroot : Nat) (x : Holding) (hs : List Holding) :
    (claimed m kroot (x :: hs)).Perm (owned m x.1 ++ claimed m kroot hs) := by
  unfold claimed
  rw [List.flatMap_cons, ← List.append_assoc, ← List.append_assoc]
  exact List.perm_append_comm.append_right _

/-- What was written lies in the allocator's pages, and in none that the kernel
or one of the given holdings has. -/
structure Spared {L : Layout} (pool : PagePool L.allocStart) (kroot : Nat) (hs : List Holding) (m m' : Mem) : Prop where
  outside : WritesIn m m' pool.pages
  held : ∀ q ∈ claimed m kroot hs, SameOn m m' q 4096

namespace Spared

variable {L : Layout} {pool : PagePool L.allocStart}

theorem of_pool (hp : Pool pool Q (A ++ claimed m kroot hs)) (hw : WritesIn m m' A) :
    Spared pool kroot hs m m' where
  outside := hw.mono (fun q hq => hp.mem (List.mem_append_left _ hq))
  held q hq := by
    refine hw.same (fun p hpA => hp.page (List.mem_append_left _ hpA))
      (hp.page (List.mem_append_right _ hq)) (fun hA => ?_)
    exact (List.nodup_append.mp hp.nodup).2.2 q hA q hq rfl

theorem claimed_eq (h : Spared pool kroot hs m m') : claimed m' kroot hs = claimed m kroot hs :=
  claimed_congr (fun q hq => h.held q (tables_claimed hq))

theorem trans (h : Spared pool kroot hs m m₁) (h' : Spared pool kroot hs m₁ m') :
    Spared pool kroot hs m m' where
  outside := h.outside.trans h'.outside
  held q hq := (h.held q hq).trans (h'.held q (by rw [h.claimed_eq]; exact hq))

end Spared

namespace Spaces

variable {L : Layout} {pool : PagePool L.allocStart}

theorem perm (h : Spaces pool P kroot hs) (hp : hs.Perm hs') : Spaces pool P kroot hs' where
  kernel := h.kernel
  roots x hx := h.roots x (hp.mem_iff.mpr hx)
  fits x hx := h.fits x (hp.mem_iff.mpr hx)
  pool := h.pool.perm ((hp.flatMap_right _).append_left _)

theorem frames_nodup (h : Spaces pool P kroot hs) (hy : y ∈ hs) : (userFrames P.mem y.1).Nodup := by
  have hn : (owned P.mem y.1).Nodup :=
    nodup_of_flatMap (f := fun h => owned P.mem h.1) (List.nodup_append.mp h.pool.nodup).2.1 hy
  exact (List.nodup_append.mp ((owned_split P.mem y.1).nodup_iff.mp hn)).2.1

/-- The pages of tables hold no user data. -/
theorem not_frame (h : Spaces pool P kroot hs) (hq : q ∈ tables P.mem kroot hs) (hx : x ∈ hs) :
    q ∉ userFrames P.mem x.1 := by
  intro hf
  obtain ⟨pre, post, rfl⟩ := List.append_of_mem hx
  have hn := (h.perm List.perm_middle).pool.nodup
  have hn := ((claimed_cons ..).trans ((owned_split ..).append_right _)).nodup_iff.mp hn
  rw [List.append_assoc] at hn
  have hq : q ∈ tables P.mem kroot (x :: (pre ++ post)) := by
    refine ((List.perm_middle.flatMap_right _).append_left _).mem_iff.mp hq
  have hd := List.nodup_append.mp hn
  rcases List.mem_append.mp hq with hq | hq
  · exact (List.nodup_append.mp hd.2.1).2.2 q hf q (List.mem_append_left _ hq) rfl
  · rw [List.flatMap_cons] at hq
    rcases List.mem_append.mp hq with hq | hq
    · exact hd.2.2 q hq q (List.mem_append_left _ hf) rfl
    · have hc : q ∈ claimed P.mem kroot (pre ++ post) :=
        tables_claimed (List.mem_append_right _ hq)
      exact (List.nodup_append.mp hd.2.1).2.2 q hf q hc rfl

/-- Writes that stay in user frames, or outside the allocator's pages. -/
theorem write (h : Spaces pool P kroot hs)
    (hs' : ∀ q ∈ pool.pages, (∀ x ∈ hs, q ∉ userFrames P.mem x.1) → SameOn P.mem m' q 4096) :
    Spaces pool { P with mem := m' } kroot hs := by
  have htab : ∀ q ∈ tables P.mem kroot hs, SameOn P.mem m' q 4096 := fun q hq =>
    hs' q (h.pool.mem (tables_claimed hq)) (fun x hx => h.not_frame hq hx)
  obtain ⟨hl, hc, _⟩ := h.toLaid.congr htab
  refine ⟨hl, ?_⟩
  show Pool pool _ (claimed m' kroot hs)
  rw [hc]
  refine h.pool.congr rfl rfl (fun q hq hn => hs' q hq (fun x hx hf => hn ?_))
  exact List.mem_append_right _ (List.mem_flatMap.mpr ⟨x, hx, userFrames_owned hf⟩)

/-- One byte of one process's memory. -/
theorem poke (h : Spaces pool P kroot hs) (hy : y ∈ hs) (hq : q ∈ userFrames P.mem y.1) (hl : q ≤ x)
    (hu : x < q + 4096) (b : UInt8) :
    Spaces pool { P with mem := poke P.mem x b } kroot hs ∧
      ∀ q' ∈ pool.pages, q' ≠ q → SameOn P.mem (Lib.poke P.mem x b) q' 4096 := by
  have hpq : q ∈ pool.pages := h.pool.mem
    (List.mem_append_right _ (List.mem_flatMap.mpr ⟨y, hy, userFrames_owned hq⟩))
  have hoff : ∀ q' ∈ pool.pages, q' ≠ q → SameOn P.mem (Lib.poke P.mem x b) q' 4096 := by
    intro q' hq' hne
    have ha := page_apart (pool.page q' hq') (pool.page q hpq) hne
    unfold Apart at ha
    exact poke_off _ _ _ _ _ (by omega)
  refine ⟨h.write (fun q' hq' hn => hoff q' hq' ?_), hoff⟩
  rintro rfl
  exact hn y hy hq

/-- An operation that writes only its own pages leaves the others' spaces as
they are. -/
theorem others {P P' : Phys} (h : Laid P.mem kroot hs) (hp : Pool pool P' (A ++ claimed P.mem kroot hs))
    (hw : WritesIn P.mem P'.mem A) :
    Laid P'.mem kroot hs ∧ Pool pool P' (A ++ claimed P'.mem kroot hs) ∧
      Spared pool kroot hs P.mem P'.mem := by
  have hsp := Spared.of_pool hp hw
  obtain ⟨hl, hc, _⟩ := h.congr (fun q hq => hsp.held q (tables_claimed hq))
  exact ⟨hl, by rw [hc]; exact hp, hsp⟩

theorem tail (h : Laid m kroot (x :: hs)) : Laid m kroot hs :=
  ⟨h.kernel, fun y hy => h.roots y (List.mem_cons_of_mem _ hy),
    fun y hy => h.fits y (List.mem_cons_of_mem _ hy)⟩

/-- A holding in front of others that are in order. -/
theorem cons (h : Laid P.mem kroot hs) (hp : Pool pool P (owned P.mem t ++ claimed P.mem kroot hs))
    (hr : UserRoot P.mem kroot t) (hf : ∀ plan, o = some plan → Fits P.mem t plan) :
    Spaces pool P kroot ((t, o) :: hs) where
  kernel := h.kernel
  roots x hx := by
    rcases List.mem_cons.mp hx with rfl | hx
    · exact hr
    · exact h.roots x hx
  fits x hx := by
    rcases List.mem_cons.mp hx with rfl | hx
    · exact hf
    · exact h.fits x hx
  pool := hp.perm (claimed_cons P.mem kroot (t, o) hs).symm

theorem replan (h : Spaces pool P kroot ((t, some plan) :: hs))
    (hf : Fits P.mem t plan → Fits P.mem t plan') : Spaces pool P kroot ((t, some plan') :: hs) where
  kernel := h.kernel
  roots x hx := by
    rcases List.mem_cons.mp hx with rfl | hx
    · exact h.roots (t, some plan) List.mem_cons_self
    · exact h.roots x (List.mem_cons_of_mem _ hx)
  fits x hx p hp := by
    rcases List.mem_cons.mp hx with rfl | hx
    · rw [← Option.some.inj hp]
      exact hf (h.fits _ List.mem_cons_self plan rfl)
    · exact h.fits x (List.mem_cons_of_mem _ hx) p hp
  pool := h.pool

theorem forget (h : Spaces pool P kroot ((t, o) :: hs)) : Spaces pool P kroot ((t, none) :: hs) where
  kernel := h.kernel
  roots x hx := by
    rcases List.mem_cons.mp hx with rfl | hx
    · exact h.roots (t, o) List.mem_cons_self
    · exact h.roots x (List.mem_cons_of_mem _ hx)
  fits x hx p hp := by
    rcases List.mem_cons.mp hx with rfl | hx
    · cases hp
    · exact h.fits x (List.mem_cons_of_mem _ hx) p hp
  pool := h.pool

/-- A fresh table. -/
theorem make (h : Spaces pool P kroot hs) (run : makeUserTable P kroot = .ok (t, P')) :
    Spaces pool P' kroot ((t, some .empty) :: hs) ∧ Spared pool kroot hs P.mem P'.mem := by
  obtain ⟨hp, ho, hr, hw, hl, _⟩ := makeUserTable_spec h.pool
    (tables_claimed (kroot_tables P.mem kroot hs)) h.kernel.slot run
  rw [← List.singleton_append] at hp
  obtain ⟨hlaid, hp', hsp⟩ := others h.toLaid hp hw
  refine ⟨cons hlaid (by rw [ho]; exact hp') hr ?_, hsp⟩
  intro plan he
  obtain rfl := Option.some.inj he
  exact .empty hl

/-- One more page in a process's table. -/
theorem add (h : Spaces pool P kroot ((t, some plan) :: hs))
    (ha : allocPage P = .ok (dst, P₁)) (hfill : WritesIn P₁.mem m₁ [dst])
    (run : mapPages { P₁ with mem := m₁ } t va dst pageSize flags = .ok P')
    (hu : vpn va 2 = userL2Index) (hflags : flags < 256) :
    Added P.mem m₁ P'.mem t va dst flags ∧ Spared pool kroot hs P.mem P'.mem ∧
      P'.freePages + (1 + missing va 2 P.mem t) = P.freePages ∧
      (Fits P'.mem t plan' → Spaces pool P' kroot ((t, some plan') :: hs)) := by
  have hpool := h.pool.perm (claimed_cons P.mem kroot (t, some plan) hs)
  obtain ⟨hp, hadd, hcount, _⟩ := add_page hpool ha hfill run hu hflags
  have hrest := tail h.toLaid
  obtain ⟨hlaid, hp', hsp⟩ := others hrest hp hadd.writes
  refine ⟨hadd, hsp, hcount, fun hf => cons hlaid hp' ?_ ?_⟩
  · exact (h.roots _ List.mem_cons_self).add hadd (hsp.held _ (tables_claimed (kroot_tables ..)))
  · intro q hq
    obtain rfl := Option.some.inj hq
    exact hf

/-- A table goes back with everything below it. -/
theorem free (h : Spaces pool P kroot ((t, o) :: hs)) :
    ∃ P', freeUserTable L P t = .ok P' ∧ Spaces pool P' kroot hs ∧
      Spared pool kroot hs P.mem P'.mem := by
  have hpool := h.pool.perm (claimed_cons P.mem kroot (t, o) hs)
  obtain ⟨P', hr, hp, hw⟩ := freeUserTable_spec hpool
  have hsp := Spared.of_pool hpool hw
  obtain ⟨hl, hc, _⟩ := (tail h.toLaid).congr (fun q hq => hsp.held q (tables_claimed hq))
  exact ⟨P', hr, ⟨hl, by rw [hc]; exact hp⟩, hsp⟩

/-- A copied space fits the plan of the space it was copied from. -/
theorem fits_cloned (h : Fits m₀ parent plan)
    (hc : Cloned pool m₀ kroot parent t held (fun _ _ => True) P) : Fits P.mem t plan where
  short := h.short
  leaves va hva hu e he := by
    have hcopy := hc.copied va hva hu trivial
    unfold Copied at hcopy
    cases hl : look va 2 m₀ parent with
    | none =>
      rw [hl] at hcopy
      rw [hcopy] at he
      cases he
    | some e₀ =>
      obtain ⟨f₀, p, hp, hleaf⟩ := h.leaves va hva hu e₀ hl
      obtain ⟨hlt, _, _, hmask⟩ := hp.bits
      rw [hl] at hcopy
      obtain ⟨f, hf, hb, hlook, _⟩ := hcopy
      rw [hleaf.flag hlt (by decide) (by decide), hmask] at hlook
      rw [hlook] at he
      exact ⟨f, p, hp, (Option.some.inj he).symm, hf, hb⟩
  loaded va hva hu hl := by
    have hcopy := hc.copied va hva hu trivial
    unfold Copied at hcopy
    cases hl₀ : look va 2 m₀ parent with
    | none => exact absurd hl₀ (h.loaded va hva hu hl)
    | some e₀ =>
      rw [hl₀] at hcopy
      obtain ⟨f, _, _, hlook, _⟩ := hcopy
      rw [hlook]
      exact Option.some_ne_none _
  tight := hc.tight

/-- A copy of a process's space. -/
theorem clone (h : Spaces pool P kroot hs) (hx : (parent, some plan) ∈ hs)
    (run : cloneUserTable P kroot parent = .ok (t, P')) :
    Spaces pool P' kroot ((t, some plan) :: hs) ∧ Spared pool kroot hs P.mem P'.mem ∧
      Cloned pool P.mem kroot parent t (claimed P.mem kroot hs) (fun _ _ => True) P' := by
  have hc := cloneUserTable_spec h.pool (tables_claimed (kroot_tables P.mem kroot hs)) h.kernel.slot
    (fun q hq => List.mem_append_right _ (List.mem_flatMap.mpr ⟨_, hx, hq⟩)) run
  obtain ⟨hlaid, hp, hsp⟩ := others h.toLaid hc.pool hc.writes
  refine ⟨cons hlaid hp hc.root ?_, hsp, hc⟩
  intro q hq
  obtain rfl := Option.some.inj hq
  exact fits_cloned (h.fits _ hx _ rfl) hc

end Spaces

/-- The heap lies below every page of the allocator. -/
theorem heap_apart {L : Layout} {pool : PagePool L.allocStart} (hq : q ∈ pool.pages) : Apart L.heapStart heapSize q 4096 :=
  .inl (pool.above q hq)

/-- Pages and heap together: who holds which table, and which payloads are live. -/
structure Estate {L : Layout} (pool : PagePool L.allocStart) (kroot : Nat) (P : Phys) (h : Heap) (hs : List Holding)
    (live : List Heap.Live) : Prop where
  spaces : Spaces pool P kroot hs
  heap : Heap.Carries L P.mem h live

namespace Estate

variable {L : Layout} {pool : PagePool L.allocStart}

theorem perm (he : Estate pool kroot P h hs live) (hp : hs.Perm hs') (hl : live.Perm live') :
    Estate pool kroot P h hs' live' := ⟨he.spaces.perm hp, he.heap.perm hl⟩

/-- Work on pages leaves the heap alone. -/
theorem pages (he : Estate pool kroot P h hs live) (hsp : Spaces pool P' kroot hs')
    (hw : WritesIn P.mem P'.mem pool.pages) : Estate pool kroot P' h hs' live := by
  refine ⟨hsp, he.heap.outside ?_⟩
  intro x hl hu
  refine hw x (fun p hp hx => ?_)
  have ha := heap_apart hp
  unfold Apart at ha
  omega

/-- Work on the heap leaves the pages alone. -/
theorem heaped (he : Estate pool kroot P h hs live)
    (hc : ∀ c k, Apart L.heapStart heapSize c k → SameOn P.mem m' c k)
    (hcar : Heap.Carries L m' h' live') : Estate pool kroot { P with mem := m' } h' hs live' :=
  ⟨he.spaces.write (fun q hq _ => hc q 4096 (heap_apart hq)), hcar⟩

theorem alloc (he : Estate pool kroot P h hs live)
    (run : Heap.allocInner P.mem h r = .ok (some p, m', h')) :
    Estate pool kroot { P with mem := m' } h' hs (⟨p, r.size⟩ :: live) := by
  obtain ⟨hcar, _, hout, _⟩ := he.heap.alloc_some run
  exact he.heaped hout hcar

theorem dealloc (he : Estate pool kroot P h hs (a :: live)) :
    ∃ m' h', Heap.deallocInner P.mem h a.ptr = .ok (m', h') ∧
      Estate pool kroot { P with mem := m' } h' hs live := by
  obtain ⟨m', h', hr, hcar, _, hout⟩ := he.heap.free
  exact ⟨m', h', hr, he.heaped hout hcar⟩

end Estate
end Osmium.Vm
