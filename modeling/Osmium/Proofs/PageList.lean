import Osmium.Proofs.Boot
import Mathlib.Data.Finset.Basic

namespace Osmium.Kalloc
open Lib

/-- What the page allocator is for: a set of pages, each lent to at most one
owner. -/
structure Lending where
  stock : Finset Nat
  lent : Finset Nat

/-- One call of it, or an owner at work. -/
inductive Lending.Step : Lending → Lending → Prop where
  | lend (d : Lending) (p : Nat) (there : p ∈ d.stock) :
      Step d ⟨d.stock.erase p, insert p d.lent⟩
  | refuse (d : Lending) (empty : d.stock = ∅) : Step d d
  | restore (d : Lending) (p : Nat) (out : p ∈ d.lent) :
      Step d ⟨insert p d.stock, d.lent.erase p⟩
  | use (d : Lending) : Step d d

/-- The allocator in use: memory with its list, and the pages it has handed out. -/
structure Use where
  phys : Phys
  held : List Nat

/-- Calls with pages that are out, and writes by their owners. -/
inductive Serve (allocStart : Nat) : Use → Use → Prop where
  | alloc (u : Use) (p : Nat) (P : Phys) (run : Kalloc.alloc u.phys = .ok (some p, P)) :
      Serve allocStart u ⟨P, p :: u.held⟩
  | refuse (u : Use) (P : Phys) (run : Kalloc.alloc u.phys = .ok (none, P)) :
      Serve allocStart u ⟨P, u.held⟩
  | free (u : Use) (p : Nat) (P : Phys) (out : p ∈ u.held)
      (run : Kalloc.free allocStart u.phys p = .ok P) :
      Serve allocStart u ⟨P, u.held.erase p⟩
  | write (u : Use) (p x : Nat) (b : UInt8) (out : p ∈ u.held) (low : p ≤ x)
      (high : x < p + pageSize) :
      Serve allocStart u ⟨{ u.phys with mem := poke u.phys.mem x b }, u.held⟩

/-- The states after `init` on the given memory. -/
inductive Reach (allocStart : Nat) (reserved : Option (Nat × Nat)) (m : Mem) : Use → Prop where
  | init (P : Phys) (run : Kalloc.init allocStart reserved m = .ok P) :
      Reach allocStart reserved m ⟨P, []⟩
  | serve (u u' : Use) (reach : Reach allocStart reserved m u) (step : Serve allocStart u u') :
      Reach allocStart reserved m u'

/-- The pages on the list, by following it. -/
def Use.free (u : Use) : List Nat := follow (load64 u.phys.mem) u.phys.freePages u.phys.head

def Use.lending (u : Use) : Lending := ⟨u.free.toFinset, u.held.toFinset⟩

variable {allocStart : Nat} {pool : PagePool allocStart} {u u' : Use}

namespace Use

theorem free_list (h : Pool pool u.phys u.held) :
    Chain (load64 u.phys.mem) u.phys.head u.free ∧ u.phys.freePages = u.free.length ∧
      (u.free ++ u.held).Perm pool.pages := by
  obtain ⟨free, hc, hn, hp⟩ := h
  have hfree : u.free = free := hc.follow (Nat.le_of_eq hn.symm)
  rw [hfree]
  exact ⟨hc, hn, hp⟩

theorem pages (h : Pool pool u.phys u.held) : (u.free ++ u.held).Perm pool.pages := (free_list h).2.2

theorem nodup (h : Pool pool u.phys u.held) : (u.free ++ u.held).Nodup :=
  (pages h).nodup_iff.mpr pool.nodup

/-- The list loses a page to an owner. -/
theorem lends (u' : Use) (h : Pool pool u.phys u.held) (h' : Pool pool u'.phys (p :: u.held))
    (hheld : u'.held = p :: u.held) :
    p ∈ u.free ∧ u'.lending = ⟨u.lending.stock.erase p, insert p u.lending.lent⟩ := by
  rw [← hheld] at h'
  have hperm : u.free.Perm (p :: u'.free) := by
    rw [← List.perm_append_right_iff u.held]
    refine (pages h).trans ((pages h').symm.trans ?_)
    rw [hheld]
    exact List.perm_middle
  have hfresh : p ∉ u'.free := by
    have hn := (List.nodup_append.mp (nodup h')).2.2
    intro hp
    exact hn p hp p (by rw [hheld]; exact List.mem_cons_self) rfl
  refine ⟨hperm.mem_iff.mpr List.mem_cons_self, ?_⟩
  unfold lending
  rw [List.toFinset_eq_of_perm _ _ hperm, hheld, List.toFinset_cons, List.toFinset_cons,
    Finset.erase_insert (by simpa using hfresh)]

/-- The list gets a page back. -/
theorem restores (u' : Use) (h : Pool pool u.phys u.held) (hp : p ∈ u.held)
    (h' : Pool pool u'.phys (u.held.erase p)) (hheld : u'.held = u.held.erase p) :
    u'.lending = ⟨insert p u.lending.stock, u.lending.lent.erase p⟩ := by
  have hout := List.perm_cons_erase hp
  rw [← hheld] at h' hout
  have hperm : u'.free.Perm (p :: u.free) := by
    rw [← List.perm_append_right_iff u'.held]
    refine (pages h').trans ((pages h).symm.trans ((hout.append_left _).trans ?_))
    exact List.perm_middle
  have hgone : p ∉ u'.held := by
    have hn := (List.nodup_append.mp (nodup h)).2.1
    exact (List.nodup_cons.mp (hout.nodup_iff.mp hn)).1
  unfold lending
  rw [List.toFinset_eq_of_perm _ _ hperm, List.toFinset_eq_of_perm _ _ hout, List.toFinset_cons,
    List.toFinset_cons, Finset.erase_insert (by simpa using hgone)]

/-- Nobody writes into the list but the allocator. -/
theorem keeps (u' : Use) (h : Pool pool u.phys u.held) (h' : Pool pool u'.phys u'.held)
    (hheld : u'.held = u.held) : u'.lending = u.lending := by
  have hperm : u'.free.Perm u.free := by
    rw [← List.perm_append_right_iff u.held]
    refine List.Perm.trans ?_ (pages h).symm
    rw [← hheld]
    exact pages h'
  unfold lending
  rw [List.toFinset_eq_of_perm _ _ hperm, hheld]

end Use

/-- Every call works on the pool as it should, and is a call of the set. -/
theorem serve_pool (hs : Serve allocStart u u') (h : Pool pool u.phys u.held) :
    Pool pool u'.phys u'.held ∧ WritesIn u.phys.mem u'.phys.mem pool.pages ∧
      Lending.Step u.lending u'.lending := by
  cases hs with
  | alloc p P run =>
    obtain ⟨h', _, hw, _⟩ := h.alloc_some run
    obtain ⟨hp, heq⟩ := Use.lends ⟨P, p :: u.held⟩ h h' rfl
    rw [heq]
    refine ⟨h', hw.mono fun q hq => ?_, .lend _ p (List.mem_toFinset.mpr hp)⟩
    rw [List.mem_singleton.mp hq]
    exact h'.mem List.mem_cons_self
  | refuse P run =>
    obtain ⟨rfl, hnone⟩ := h.alloc_none run
    refine ⟨h, .refl _ _, .refuse _ ?_⟩
    unfold Use.lending Use.free
    rw [hnone]
    rfl
  | free p P out run =>
    obtain ⟨P', hrun, h', _, hw⟩ := (h.perm (List.perm_cons_erase out)).free
    obtain rfl := Except.ok.inj (hrun.symm.trans run)
    rw [Use.restores ⟨P', u.held.erase p⟩ h out h' rfl]
    refine ⟨h', hw.mono fun q hq => ?_, .restore _ p (List.mem_toFinset.mpr out)⟩
    rw [List.mem_singleton.mp hq]
    exact h.mem out
  | write p x b out low high =>
    have hw : WritesIn u.phys.mem (poke u.phys.mem x b) u.held := by
      intro y hy
      refine if_neg fun he => hy p out ?_
      unfold pageSize at high
      omega
    have h' := h.write_mem hw
    rw [Use.keeps ⟨{ u.phys with mem := poke u.phys.mem x b }, u.held⟩ h h' rfl]
    exact ⟨h', hw.mono fun q hq => h.mem hq, .use _⟩

section Run

variable (pos : 0 < allocStart) (top : allocStart ≤ physTop)
include pos top

theorem reach_pool (h : Reach allocStart reserved m u) : ∃ res, reservedRange reserved = .ok res ∧
    Pool (rangePool pos res) u.phys u.held ∧ WritesIn m u.phys.mem (rangePool pos res).pages := by
  induction h with
  | init P run =>
    cases hres : reservedRange reserved with
    | error e =>
      unfold init at run
      rw [hres] at run
      cases run
    | ok res =>
      obtain ⟨P', hrun, hp, hw⟩ := init_range pos top hres m
      obtain rfl := Except.ok.inj (hrun.symm.trans run)
      exact ⟨res, rfl, hp, hw⟩
  | serve u u' _ step ih =>
    obtain ⟨res, hres, hp, hw⟩ := ih
    obtain ⟨hp', hw', _⟩ := serve_pool step hp
    exact ⟨res, hres, hp', hw.trans hw'⟩

/-- In every run the list threaded through the free pages is a simple chain of
whole pages of the range, as many as counted, and none of them is out. An
allocation fails only on an empty list; otherwise it clears a page that is apart
from all pages that are out, and leaves those alone. The calls are those of a
set of pages. -/
theorem page_list_refines (h : Reach allocStart reserved m u) :
    (Chain (load64 u.phys.mem) u.phys.head u.free ∧ u.free.Nodup ∧
      u.free.length = u.phys.freePages ∧
      ∀ p ∈ u.free, p % pageSize = 0 ∧ allocStart ≤ p ∧ p + pageSize ≤ physTop) ∧
    (∀ p ∈ u.free, p ∉ u.held) ∧
    (∃ o P, Kalloc.alloc u.phys = .ok (o, P) ∧ (o = none ↔ u.free = []) ∧
      ∀ p, o = some p → p ∈ u.free ∧ (∀ q ∈ u.held, Apart p pageSize q pageSize) ∧
        (∀ x, p ≤ x → x < p + pageSize → P.mem x = 0) ∧
        ∀ q ∈ u.held, SameOn u.phys.mem P.mem q pageSize) ∧
    (∀ p ∈ u.held, ∃ P, Kalloc.free allocStart u.phys p = .ok P) ∧
    ∀ u', Serve allocStart u u' → Lending.Step u.lending u'.lending := by
  obtain ⟨res, _, hp, _⟩ := reach_pool pos top h
  obtain ⟨hchain, hcount, hpages⟩ := Use.free_list hp
  obtain ⟨hnodup, _, hapart⟩ := List.nodup_append.mp (Use.nodup hp)
  have hin : ∀ p ∈ u.free, p ∈ (rangePool pos res).pages := fun p hm =>
    hpages.mem_iff.mp (List.mem_append_left _ hm)
  refine ⟨⟨hchain, hnodup, hcount.symm, fun p hm => ⟨(rangePool pos res).page p (hin p hm),
    (rangePool pos res).above p (hin p hm), (rangePool pos res).below p (hin p hm)⟩⟩,
    fun p hm ho => hapart p hm p ho rfl, ?_, fun p ho => ?_, fun u' hs => (serve_pool hs hp).2.2⟩
  · obtain ⟨⟨o, P⟩, hrun⟩ := hp.alloc_total
    refine ⟨o, P, hrun, ?_, ?_⟩
    · cases o with
      | none =>
        have hzero := (hp.alloc_none hrun).2
        rw [hcount] at hzero
        exact ⟨fun _ => List.length_eq_zero_iff.mp hzero, fun _ => rfl⟩
      | some p =>
        refine ⟨nofun, fun hnil => ?_⟩
        have hmore := (hp.alloc_some hrun).2.1
        rw [hcount, hnil] at hmore
        cases hmore
    · rintro p rfl
      obtain ⟨hp', _, hw, hzero⟩ := hp.alloc_some hrun
      obtain ⟨hm, _⟩ := Use.lends ⟨P, p :: u.held⟩ hp hp' rfl
      have hne : ∀ q ∈ u.held, p ≠ q := fun q hq => hapart p hm q hq
      have hpage := hp'.page (p := p) List.mem_cons_self
      refine ⟨hm, fun q hq => page_apart hpage (hp.page hq) (hne q hq), hzero, fun q hq => ?_⟩
      refine hw.same (fun r hr => ?_) (hp.page hq) fun hmem => hne q hq (List.mem_singleton.mp hmem).symm
      rw [List.mem_singleton.mp hr]
      exact hpage
  · obtain ⟨P, hrun, _⟩ := (hp.perm (List.perm_cons_erase ho)).free
    exact ⟨P, hrun⟩

end Run

theorem page_list_refines_boot : ∃ u, Reach smallImage.allocStart none (fun _ => 0) u ∧
    u.held = [] ∧ u.free.length = u.phys.freePages ∧
    ∀ u', Serve smallImage.allocStart u u' → Lending.Step u.lending u'.lending := by
  obtain ⟨P, run, _⟩ := init_spec smallImage (show reservedRange none = .ok (0, 0) from rfl) (fun _ => 0)
  have h := Reach.init P run
  obtain ⟨hlist, _, _, _, hstep⟩ :=
    page_list_refines smallImage.allocStart_pos smallImage.allocStart_range.2 h
  exact ⟨_, h, rfl, hlist.2.2.1, hstep⟩

/-- The reserved interval, rounded outwards to whole pages. -/
def Hull (reserved : Option (Nat × Nat)) (x : Nat) : Prop :=
  ∃ s e, reserved = some (s, e) ∧ s / pageSize * pageSize ≤ x ∧ x < nextMultipleOf e pageSize

/-- A page is left out exactly when it meets the hull. -/
theorem spared_iff (hres : reservedRange reserved = .ok res) (hp : p % pageSize = 0) :
    (res.2 ≤ p ∨ p + pageSize ≤ res.1) ↔ ∀ x, p ≤ x → x < p + pageSize → ¬Hull reserved x := by
  unfold reservedRange at hres
  split at hres
  · obtain rfl := Except.ok.inj hres
    refine iff_of_true (.inl (Nat.zero_le p)) fun x _ _ h => ?_
    obtain ⟨s, e, h, _⟩ := h
    cases h
  next s e =>
    split at hres
    · obtain rfl := Except.ok.inj hres
      have hr := nextMultipleOf_range e
      constructor
      · rintro hout x hlow hhigh ⟨_, _, he, hin⟩
        obtain ⟨rfl, rfl⟩ := Prod.mk.inj (Option.some.inj he)
        dsimp only at hout
        omega
      · intro hout
        have hmiss := hout p (Nat.le_refl p) (by unfold pageSize; omega)
        have hside : ¬(s / pageSize * pageSize ≤ p ∧ p < nextMultipleOf e pageSize) := fun h =>
          hmiss ⟨s, e, rfl, h.1, h.2⟩
        dsimp only
        unfold pageSize at *
        omega
    · cases hres

theorem reserved_in_hull (hs : s ≤ x) (he : x < e) : Hull (some (s, e)) x := by
  have hr := nextMultipleOf_range e
  refine ⟨s, e, rfl, ?_, by omega⟩
  unfold pageSize
  omega

theorem reservedRange_total (hr : ∀ s e, reserved = some (s, e) → s ≤ e ∧ e < 2 ^ 63) :
    ∃ res, reservedRange reserved = .ok res := by
  cases reserved with
  | none => exact ⟨_, rfl⟩
  | some r =>
    obtain ⟨s, e⟩ := r
    have hround := nextMultipleOf_range e
    have hlt := hr s e rfl
    refine ⟨_, if_pos ?_⟩
    omega

/-- After `init` the free list holds, each once, exactly the whole pages between
the end of the heap and the top of memory that miss the reserved hull. The
reserved bytes are never written, nor is a page with one of them handed out. -/
theorem seeding_exact (pos : 0 < allocStart) (top : allocStart < physTop)
    (hr : ∀ s e, reserved = some (s, e) → s ≤ e ∧ e < 2 ^ 63) (m : Mem) :
    (∃ P, init allocStart reserved m = .ok P ∧ ∃ free, Chain (load64 P.mem) P.head free ∧
      P.freePages = free.length ∧ free.Nodup ∧
      ∀ p, p ∈ free ↔ p % pageSize = 0 ∧ allocStart ≤ p ∧ p + pageSize ≤ physTop ∧
        ∀ x, p ≤ x → x < p + pageSize → ¬Hull reserved x) ∧
    ∀ u, Reach allocStart reserved m u → ∀ s e x, reserved = some (s, e) → s ≤ x → x < e →
      u.phys.mem x = m x ∧ ∀ p ∈ u.free ++ u.held, ¬(p ≤ x ∧ x < p + pageSize) := by
  obtain ⟨res, hres⟩ := reservedRange_total hr
  have hle := Nat.le_of_lt top
  have hmem : ∀ p, p ∈ (rangePool pos res).pages ↔ p % pageSize = 0 ∧ allocStart ≤ p ∧
      p + pageSize ≤ physTop ∧ ∀ x, p ≤ x → x < p + pageSize → ¬Hull reserved x := by
    intro p
    refine (mem_seeds hle res p).trans ?_
    constructor
    · rintro ⟨hpage, hlow, hhigh, hside⟩
      exact ⟨hpage, hlow, hhigh, (spared_iff hres hpage).mp hside⟩
    · rintro ⟨hpage, hlow, hhigh, hout⟩
      exact ⟨hpage, hlow, hhigh, (spared_iff hres hpage).mpr hout⟩
  constructor
  · obtain ⟨P, hrun, ⟨free, hchain, hcount, hperm⟩, _⟩ := init_range pos hle hres m
    rw [List.append_nil] at hperm
    refine ⟨P, hrun, free, hchain, hcount, hperm.nodup_iff.mpr (rangePool pos res).nodup, fun p => ?_⟩
    rw [hperm.mem_iff]
    exact hmem p
  · rintro u hu s e x rfl hs he
    obtain ⟨res', hres', hp, hw⟩ := reach_pool pos hle hu
    obtain rfl := Except.ok.inj (hres.symm.trans hres')
    have hin := reserved_in_hull hs he
    have hapart : ∀ p ∈ (rangePool pos res).pages, ¬(p ≤ x ∧ x < p + pageSize) := fun p hm hx =>
      ((hmem p).mp hm).2.2.2 x hx.1 hx.2 hin
    exact ⟨hw x hapart, fun p hm => hapart p ((Use.pages hp).mem_iff.mp hm)⟩

/-- A device tree that neither starts nor ends on a page. -/
theorem seeding_exact_tree : ∃ P free,
    init smallImage.allocStart (some (0x87e00123, 0x87e02001)) (fun _ => 0) = .ok P ∧
    Chain (load64 P.mem) P.head free ∧ free.Nodup ∧
    0x87dff000 ∈ free ∧ 0x87e00000 ∉ free ∧ 0x87e02000 ∉ free ∧ 0x87e03000 ∈ free := by
  have hr : ∀ s e, some (0x87e00123, 0x87e02001) = some (s, e) → s ≤ e ∧ e < 2 ^ 63 := by
    intro s e h
    obtain ⟨rfl, rfl⟩ := Prod.mk.inj (Option.some.inj h)
    decide
  obtain ⟨⟨P, hrun, free, hchain, _, hnodup, hmem⟩, _⟩ :=
    seeding_exact smallImage.allocStart_pos (by decide) hr (fun _ => 0)
  have hin : ∀ p, p % 4096 = 0 → 0x80b00000 ≤ p → p + 4096 ≤ 0x88000000 →
      p + 4096 ≤ 0x87e00000 ∨ 0x87e03000 ≤ p → p ∈ free := by
    intro p hpage hlow hhigh hside
    refine (hmem p).mpr ⟨hpage, hlow, hhigh, ?_⟩
    rintro x hx hx' ⟨s, e, he, hs, hx''⟩
    obtain ⟨rfl, rfl⟩ := Prod.mk.inj (Option.some.inj he)
    unfold nextMultipleOf pageSize at *
    omega
  have hout : ∀ p, 0x87e00123 / 4096 * 4096 ≤ p → p < 0x87e03000 → p ∉ free := by
    intro p hlow hhigh h
    exact ((hmem p).mp h).2.2.2 p (Nat.le_refl p) (by unfold pageSize; omega) ⟨_, _, rfl, hlow, hhigh⟩
  exact ⟨P, free, hrun, hchain, hnodup, hin _ (by decide) (by decide) (by decide) (by decide),
    hout _ (by decide) (by decide), hout _ (by decide) (by decide),
    hin _ (by decide) (by decide) (by decide) (by decide)⟩

end Osmium.Kalloc
