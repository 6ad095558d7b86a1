import Osmium.Proofs.Footprint
import Osmium.Proofs.Translation

namespace Osmium.Sv39
open Lib Vm

/-- A leaf of the kernel's serves S-mode what its bits allow, whatever `SUM` says. -/
theorem access_kernel (hd : Dirs 2 m t) (h : look va 2 m t = some e) (hl : Leaf e f perm)
    (hp : perm < 256) (hr : perm &&& pteR ≠ 0) (hu : perm &&& pteU = 0) (hva : va < vaMax)
    (acc : Access) (sum : Bool) : access m t va acc .supervisor sum =
      if perm &&& acc.bit ≠ 0 then some (f + va % 4096) else none := by
  have hflag : ∀ bit, bit &&& (pteA ||| pteD ||| pteV) = 0 → bit < 1024 → e &&& bit = perm &&& bit :=
    fun bit h1 h2 => hl.flag hp h1 h2
  have hR : e &&& pteR ≠ 0 := by
    rw [hflag pteR (by decide) (by decide)]
    exact hr
  have hU : e &&& pteU = 0 := by
    rw [hflag pteU (by decide) (by decide)]
    exact hu
  obtain ⟨hA, hD⟩ := hl.preset hp
  have hres : reserved e = false :=
    decide_eq_false (not_or.mpr ⟨fun h => hR h.1, Nat.not_le.mpr (hl.lt hp)⟩)
  have hleaf : isLeaf e = true := by
    unfold isLeaf
    rw [Nat.and_or_distrib_left]
    simp [Nat.or_eq_zero_iff, hR]
  have hperm : permits e acc .supervisor sum = true ↔ perm &&& acc.bit ≠ 0 := by
    have hB : e &&& acc.bit = perm &&& acc.bit := by
      cases acc <;> exact hflag _ (by decide) (by decide)
    rw [← hB]
    unfold permits
    cases acc <;> simp [Access.bit, hU, hA, hD]
  have hcan : canonical va = true := by
    unfold canonical
    simp only [decide_eq_true_eq]
    exact .inl hva
  have ha := hl.aligned
  unfold access
  rw [if_pos hcan, look_walk hd h hres hleaf]
  rw [← hl.frame_eq hp] at ha ⊢
  by_cases hbit : perm &&& acc.bit ≠ 0
  · rw [if_pos hbit]
    exact if_pos ⟨hperm.mpr hbit, ha⟩
  · rw [if_neg hbit]
    exact if_neg fun hboth => hbit (hperm.mp hboth.1)

/-- Nothing is reached where nothing is mapped. -/
theorem access_unmapped (hd : Dirs 2 m t) (h : look va 2 m t = none) (acc : Access) (mode : Mode)
    (sum : Bool) : access m t va acc mode sum = none := by
  unfold access
  split
  · split
    · rfl
    next e level hw =>
      have hlook := (walk_look hd hw).2
      rw [h] at hlook
      cases hlook
  · rfl

end Osmium.Sv39

namespace Osmium
open Lib Vm Control

variable {T : Type} {E : Env} {pool : PagePool E.allocStart} {s s' : Sys T}

/-- The kernel's table maps the sections of the image, and nothing else. -/
def Mirrors (E : Env) (s : Sys T) : Prop :=
  ∀ v < vaMax, look v 2 s.phys.mem s.kernelRoot = identityLeaf v (rightsOf (kernelSections E.toLayout) v)

theorem Kalloc.reserved_of_init (run : Kalloc.init a reserved m = .ok P) :
    ∃ res, Kalloc.reservedRange reserved = .ok res := by
  unfold Kalloc.init at run
  rw [bind_ok] at run
  obtain ⟨res, hres, _⟩ := run
  exact ⟨res, hres⟩

theorem boot_mirrors (run : kmain E reserved m regs = .ok s) : Mirrors E s := by
  simp only [kmain, bind_ok, Except.ok.injEq] at run
  obtain ⟨P, hinit, ⟨a, P₁⟩, ha, ⟨b, P₂⟩, hb, P₃, hfa, P₄, hfb, ⟨root, P₅⟩, hkvm, ⟨m', hp⟩, hheap,
    rfl⟩ := run
  obtain ⟨res, hres⟩ := Kalloc.reserved_of_init hinit
  obtain ⟨P', hinit', hpool, _⟩ := Kalloc.init_spec E.toLayout hres m
  obtain rfl := Except.ok.inj (hinit'.symm.trans hinit)
  have hbuilt := (kvmmake_ends (hpool.self_test ha hb hfa hfb)).result hkvm
  obtain ⟨m₁, h₁, hheap', _, hsame⟩ := Heap.Carries.start E.toLayout P₅.mem 0
  obtain ⟨rfl, rfl⟩ := Prod.mk.inj (Except.ok.inj (hheap'.symm.trans hheap))
  have hapart : ∀ q ∈ tabs (2 + 1) P₅.mem root, SameOn P₅.mem m₁ q 4096 := by
    intro q hq
    apply hsame q 4096
    apply heap_apart
    exact hbuilt.pool.mem (List.mem_append_left _ hq)
  intro v hv
  exact (look_congr hapart).trans (hbuilt.looks v hv)

/-- No step writes into the kernel's table or the image, or where nothing is the
kernel's to give. -/
theorem step_image (h : Sane E pool lost s) (move : Step E s s') : Confines E pool [] s s' :=
  step_leaves h move fun _ _ hcode => .nil hcode

theorem Mirrors.step (hm : Mirrors E s) (h : Sane E pool lost s) (move : Step E s s') : Mirrors E s' := by
  intro v hv
  have hl := step_image h move
  rw [hl.root, hl.look_eq (h.ledger.owns.spaces.toLaid.mono nofun) (.inl rfl) v]
  exact hm v hv

/-- What the hardware makes of an access of S-mode to an address of the kernel's. -/
def kernelAccess (E : Env) (v : Nat) (acc : Sv39.Access) : Option Nat :=
  (rightsOf (kernelSections E.toLayout) v).bind fun perm => if perm &&& acc.bit ≠ 0 then some v else none

theorem kernelRights_place (h : rightsOf (kernelSections L) v = some perm) :
    perm &&& pteR ≠ 0 ∧ v < 0x88000000 := by
  obtain ⟨s, hs, rfl⟩ := Option.map_eq_some_iff.mp h
  have hin := List.find?_some hs
  have hmem := List.mem_of_find?_eq_some hs
  have huser := L.user
  have hro := L.rodata
  have hdata := L.data
  have htop := L.top
  have hdevices : uart0 + pageSize ≤ physTop ∧ plic + plicSize ≤ physTop ∧ physTop = 0x88000000 := by decide
  simp only [decide_eq_true_eq] at hin
  simp only [kernelSections, List.mem_cons, List.not_mem_nil, or_false] at hmem
  rcases hmem with rfl | rfl | rfl | rfl | rfl | rfl | rfl
  all_goals
    dsimp only at hin ⊢
    exact ⟨by decide, by omega⟩

/-- What the kernel sees, whatever lies below the allocator's pages. -/
theorem Mirrors.access (hm : Mirrors E s) (h : Sane E pool lost s) (hr : LiveRoot s r)
    (hmem : ∀ x, E.allocStart ≤ x → m x = s.phys.mem x) (hv : v < vaMax)
    (hslot : vpn v 2 ≠ userL2Index) (acc : Sv39.Access) (sum : Bool) :
    Sv39.access m r v acc .supervisor sum = kernelAccess E v acc ∧
      Sv39.access m r v acc .user sum = none := by
  have hpages : ∀ q ∈ pool.pages, SameOn s.phys.mem m q 4096 := by
    intro q hq x hx _
    have habove := pool.above q hq
    exact hmem x (Nat.le_trans habove hx)
  have hspaces := h.ledger.owns.spaces
  have hlaid := (hspaces.write fun q hq _ => hpages q hq).toLaid
  have hkernel : look v 2 m s.kernelRoot = identityLeaf v (rightsOf (kernelSections E.toLayout) v) := by
    rw [← hm v hv]
    exact look_congr fun q hq => hpages q (hspaces.pool.mem (List.mem_append_left _ hq))
  have hroot : look v 2 m r = identityLeaf v (rightsOf (kernelSections E.toLayout) v) ∧ Dirs 2 m r := by
    rcases hr with rfl | hr
    · exact ⟨hkernel, hlaid.kernel.dirs⟩
    · rw [← rootsOf_stock E lost s] at hr
      obtain ⟨x, hx, rfl⟩ := List.mem_map.mp hr
      have huser := hlaid.roots x hx
      exact ⟨(look_shared huser hslot).trans hkernel, huser.dirs_all hlaid.kernel⟩
  obtain ⟨hlook, hdirs⟩ := hroot
  unfold kernelAccess
  cases hrights : rightsOf (kernelSections E.toLayout) v with
  | none =>
    rw [hrights] at hlook
    exact ⟨Sv39.access_unmapped hdirs hlook acc _ sum, Sv39.access_unmapped hdirs hlook acc _ sum⟩
  | some perm =>
    rw [hrights] at hlook
    obtain ⟨hperm, hU, _⟩ := kernelRights hrights
    obtain ⟨hR, htop⟩ := kernelRights_place hrights
    have hleaf : Sv39.Leaf (paToPte (v / 4096 * 4096) ||| leafFlags perm) (v / 4096 * 4096) perm :=
      ⟨rfl, Nat.mul_mod_left _ _, by omega⟩
    refine ⟨?_, ?_⟩
    · rw [Sv39.access_kernel hdirs hlook hleaf hperm hR hU hv, Nat.div_add_mod']
      rfl
    · cases hacc : Sv39.access m r v acc .user sum with
      | none => rfl
      | some pa =>
        obtain ⟨e, he, hu, _⟩ := Sv39.access_user hdirs hacc
        obtain rfl := Option.some.inj (hlook.symm.trans he)
        rw [hleaf.flag hperm (by decide) (by decide)] at hu
        exact absurd hU hu

theorem reachable_mirrors (h : Reachable E reserved s) : Mirrors E s := by
  induction h with
  | boot m regs run => exact boot_mirrors run
  | step reach move ih =>
    obtain ⟨res, lost, _, hs⟩ := reachable_sane reach
    exact ih.step hs move

/-- From boot on, and under whatever table is active, S-mode reaches exactly the
sections of the image, each at its own address with its own rights, and U-mode
none of them; and code, program images and constants stay what they were. -/
theorem kernel_view_kept (boot : kmain E reserved m regs = .ok s₀)
    (run : Relation.ReflTransGen (Step E) s₀ s) :
    (∀ x < E.dataStart, s.phys.mem x = s₀.phys.mem x) ∧ LiveRoot s s.hart.satp ∧
    ∀ r, LiveRoot s r → ∀ v < vaMax, vpn v 2 ≠ userL2Index → ∀ acc sum,
      Sv39.access s.phys.mem r v acc .supervisor sum = kernelAccess E v acc ∧
      Sv39.access s.phys.mem r v acc .user sum = none := by
  have hboot : Reachable E reserved s₀ := .boot m regs boot
  have himage : ∀ x < E.dataStart, s.phys.mem x = s₀.phys.mem x := by
    have hdata : E.dataStart < E.heapStart := E.data.2
    induction run with
    | refl => exact fun _ _ => rfl
    | tail before move ih =>
      obtain ⟨res, lost, _, hs⟩ := reachable_sane (hboot.steps before)
      exact fun x hx => ((step_image hs move).image x (by omega)).trans (ih x hx)
  have hreach := hboot.steps run
  obtain ⟨res, lost, _, hs⟩ := reachable_sane hreach
  exact ⟨himage, hs.satp_live, fun r hr v hv hslot acc sum =>
    (reachable_mirrors hreach).access hs hr (fun _ _ => rfl) hv hslot acc sum⟩

/-- The boot of a small image: its text can be read but not written. -/
theorem kernel_view_kept_small : ∃ s : Sys Nat, Reachable smallEnv none s ∧
    Sv39.access s.phys.mem s.hart.satp 0x80200000 .load .supervisor false = some 0x80200000 ∧
    Sv39.access s.phys.mem s.hart.satp 0x80200000 .store .supervisor false = none ∧
    Sv39.access s.phys.mem s.hart.satp 0x80200000 .load .user false = none := by
  obtain ⟨s₀, run, hw, _⟩ := kmain_total (T := Nat) smallEnv (show Kalloc.reservedRange none = .ok (0, 0) from rfl)
    (by rw [smallEnv_seeds]; decide) (fun _ => 0) (fun _ => 0)
  have hmove : Step smallEnv s₀ _ := .bootDone hw.code
  obtain ⟨_, hsatp, hview⟩ := kernel_view_kept run (.single hmove)
  have hat := fun acc => hview _ hsatp 0x80200000 (by decide) (by decide) acc false
  exact ⟨_, (Reachable.boot _ _ run).step hmove, (hat .load).1, (hat .store).1, (hat .load).2⟩

end Osmium
