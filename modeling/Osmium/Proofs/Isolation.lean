import Osmium.Proofs.Ownership

namespace Osmium
open Lib Vm Control

variable {T : Type} {E : Env} {pool : PagePool E.allocStart} {s s' : Sys T}

theorem procs_pair (hp : s.proc i = some p) (hq : s.proc j = some q) (hne : j ≠ i) :
    ∃ L, s.procs.reduceOption.Perm (p :: q :: L) := by
  obtain ⟨L, hL, _, hset⟩ := procs_split hp
  have hlt : i < s.procs.length := (List.getElem?_eq_some_iff.mp (proc_slot hp)).1
  have hq' : ({ s with procs := s.procs.set i none } : Sys T).proc j = some q := by
    show ((s.procs.set i none)[j]?).join = _
    rw [Proc.proc_set _ _ _ _ hlt, if_neg hne]
    exact hq
  obtain ⟨L', hL', _⟩ := procs_split hq'
  rw [show ({ s with procs := s.procs.set i none } : Sys T).procs.reduceOption = L from hset] at hL'
  exact ⟨L', hL.trans (hL'.cons p)⟩

/-- `exec` changes the table of a process right before it loads it, and frees the
old one behind that. -/
theorem Control.Code.moving_switch {c : List (Instr T)} (h : Code kroot top S lvl c)
    (hS : S = .moving old new) :
    (∃ r, .switchTo r ∈ c) ∧ ∀ t, old = some t → .freeUserTable t ∈ c := by
  induction h with
  | intrOffMoving _ ih | wakeAll _ ih =>
    obtain ⟨⟨r, hr⟩, hf⟩ := ih hS
    exact ⟨⟨r, List.mem_cons_of_mem _ hr⟩, fun t ht => List.mem_cons_of_mem _ (hf t ht)⟩
  | switchMoving frees =>
    cases hS
    exact ⟨⟨_, List.mem_cons_self⟩, fun t ht => List.mem_cons_of_mem _ (frees t ht)⟩
  | _ => cases hS <;> simp_all [Site.isOpen, Site.isDeep]

/-- The hart works for a user process: in U-mode, or in the kernel on its stack,
and not between the two halves of `exec`'s switch. -/
structure Acts (s : Sys T) (i : Nat) (p : Process T) (t : Nat) : Prop where
  caller : s.currentProc = some (i, p)
  space : p.userTable = some t
  stack : s.hart.stack ≠ .boot
  settled : ∀ r, .switchTo r ∉ s.hart.code

theorem Control.AtThread.unique (h : AtThread s j q) (hc : s.currentProc = some (i, p)) : q = p := by
  obtain ⟨hcur, hp⟩ := Sys.currentProc_eq hc
  obtain rfl := Option.some.inj (h.current.symm.trans hcur)
  exact Option.some.inj (h.here.symm.trans hp)

namespace Sane

/-- On a thread's own stack the active table is that of the thread, except right
before the switch in `exec`. -/
theorem satp_page (h : Sane E pool lost s) (hc : s.currentProc = some (i, p))
    (hstack : s.hart.stack ≠ .boot) (hsettled : ∀ r, .switchTo r ∉ s.hart.code) :
    s.hart.satp = p.pageTable := by
  obtain ⟨S, lvl, top, _, _, hplace, hcode⟩ := h.control
  cases S with
  | thread =>
    obtain ⟨j, q, hat, _, _, hsat⟩ := hplace
    rw [hsat, hat.unique hc]
  | parted dead =>
    obtain ⟨j, q, hat, _, _, _, hsat⟩ := hplace
    rw [hsat, hat.unique hc]
  | user =>
    obtain ⟨j, q, hat, _, _, _, _, hsat⟩ := hplace
    rw [hsat, hat.unique hc]
  | moving old new =>
    obtain ⟨⟨r, hr⟩, _⟩ := hcode.moving_switch rfl
    exact absurd hr (hsettled r)
  | _ => exact absurd hplace.1.stack hstack

theorem satp (h : Sane E pool lost s) (ha : Acts s i p t) : s.hart.satp = t := by
  have hpage := (h.sound (Sys.currentProc_eq ha.caller).2).page
  rw [ha.space] at hpage
  exact (h.satp_page ha.caller ha.stack ha.settled).trans hpage

theorem caller (h : Sane E pool lost s) (ha : Acts s i p t) :
    Syscall.Caller pool s (estate E lost s)
      ((lost.map Asset.block ++ stock E s).flatMap (Asset.blocks E) ++ fixed s) t
      (planOf E p.toProcData) where
  owns := h.ledger.owns
  held := holding_mem (Sys.currentProc_eq ha.caller).2 ha.space
  root := by
    unfold Proc.currentRoot
    rw [ha.caller]
    have hp := (h.sound (Sys.currentProc_eq ha.caller).2).page
    rw [ha.space] at hp
    exact hp
  satp := h.satp ha

end Sane

/-- The text and the stack of a process are mapped, each with its rights. -/
theorem Sane.program_leaf (h : Sane E pool lost s) (hp : s.proc j = some p)
    (ht : p.userTable = some t) (hi : p.image = some prog)
    (hva : userText ≤ va ∧ va < userText + Proc.npages E prog * pageSize ∧ perm = textPerm ∨
      userStackTop - pageSize ≤ va ∧ va < userStackTop ∧ perm = dataPerm) :
    vpn va 2 = userL2Index ∧ va < vaMax ∧
      ∃ e f, look va 2 s.phys.mem t = some e ∧ Sv39.Leaf e f perm := by
  have hfit := h.spaces.fits _ (holding_mem hp ht) _ rfl
  have htext : (planOf E p.toProcData).text = Proc.npages E prog := by
    unfold planOf
    rw [hi]
    rfl
  have hmax := (Books.npages_fits E prog).2
  unfold userStackTop pageSize userText at *
  obtain ⟨hslot, hlow⟩ : vpn va 2 = userL2Index ∧ va < vaMax :=
    vpn_user (by unfold userText; omega) (by omega)
  obtain ⟨e, he⟩ := Option.ne_none_iff_exists'.mp (hfit.loaded va hlow hslot (by
    rcases hva with hva | hva
    · exact .inl ⟨hva.1, by rw [htext]; exact hva.2.1⟩
    · exact .inr ⟨rfl, hva.1, hva.2.1⟩))
  obtain ⟨f, perm', hallow, hleaf⟩ := hfit.leaves va hlow hslot e he
  refine ⟨hslot, hlow, e, f, he, ?_⟩
  -- the region an address lies in decides its permissions
  rcases hallow with ⟨⟨_, hin⟩, rfl⟩ | ⟨hin, rfl⟩
  · rw [htext] at hin
    unfold userText pageSize at hin
    rcases hva with ⟨_, _, rfl⟩ | hva
    · exact hleaf
    · omega
  · rcases hva with hva | ⟨_, _, rfl⟩
    · rcases hin with ⟨_, hin, _⟩ | ⟨hin, _⟩
      · unfold userStackTop pageSize at hin
        omega
      · unfold userHeapBase at hin
        omega
    · exact hleaf

/-- A process fetches its text and uses its stack. -/
theorem Sane.program_access (h : Sane E pool lost s) (hp : s.proc j = some p)
    (ht : p.userTable = some t) (hi : p.image = some prog)
    (hva : userText ≤ va ∧ va < userText + Proc.npages E prog * pageSize ∧ acc = .fetch ∨
      userStackTop - pageSize ≤ va ∧ va < userStackTop ∧ acc ≠ .fetch) :
    ∃ pa, Sv39.access s.phys.mem t va acc .user false = some pa := by
  have hdirs := (h.spaces.roots _ (holding_mem hp ht)).dirs_all h.spaces.kernel
  rcases hva with ⟨hl, hu, rfl⟩ | ⟨hl, hu, hacc⟩
  · obtain ⟨_, hlow, e, f, he, hleaf⟩ := h.program_leaf hp ht hi (.inl ⟨hl, hu, rfl⟩)
    exact ⟨_, Sv39.access_leaf hdirs he hleaf (by decide) (by decide) (by decide) (by decide)
      (.inl rfl) hlow⟩
  · obtain ⟨_, hlow, e, f, he, hleaf⟩ := h.program_leaf hp ht hi (.inr ⟨hl, hu, rfl⟩)
    refine ⟨_, Sv39.access_leaf hdirs he hleaf (by decide) (by decide) (by decide) ?_ (.inl rfl) hlow⟩
    cases acc with
    | fetch => exact absurd rfl hacc
    | load => decide
    | store => decide

/-- A table maps an address with `PTE_U` to a frame. -/
def MapsUser (m : Mem) (t va frame : Nat) : Prop :=
  ∃ e, look va 2 m t = some e ∧ e &&& pteU ≠ 0 ∧ pteToPa e = frame

/-- Every page that holds a page table. -/
def tablePages (s : Sys T) : List Nat :=
  tabs 3 s.phys.mem s.kernelRoot ++ (userRoots s ++ building s).flatMap (userTabs s.phys.mem)

theorem tables_roots (E : Env) (lost : List Heap.Live) (s : Sys T) :
    tables s.phys.mem s.kernelRoot (estate E lost s) = tablePages s := by
  unfold tables tablePages estate
  rw [← rootsOf_stock E lost s]
  unfold rootsOf
  rw [List.flatMap_map]

/-- What a write for one process must not change: the bytes that a process with
another table can read in U-mode, the page tables, and the kernel's image and
heap. -/
structure Spares (E : Env) (s : Sys T) (t : Nat) (m' : Mem) : Prop where
  bytes : ∀ va acc pa, Sv39.access s.phys.mem t va acc .user false = some pa → m' pa = s.phys.mem pa
  tables : ∀ q ∈ tablePages s, SameOn s.phys.mem m' q 4096
  kernel : ∀ x, E.textStart ≤ x → x < E.allocStart → m' x = s.phys.mem x

namespace Sane

theorem maps_frame (h : Sane E pool lost s) (hx : (t, o) ∈ estate E lost s)
    (hm : MapsUser s.phys.mem t va frame) : frame ∈ userFrames s.phys.mem t := by
  obtain ⟨e, he, hu, rfl⟩ := hm
  exact look_userFrame (user_slot (h.spaces.roots _ hx) h.spaces.kernel he hu) he

theorem pages_nodup (h : Sane E pool lost s) :
    (tabs 3 s.phys.mem s.kernelRoot ++
      (userRoots s ++ building s).flatMap (owned s.phys.mem)).Nodup := h.pages_held.nodup

/-- Two processes have no page in common. -/
theorem owned_apart (h : Sane E pool lost s) (hp : s.proc i = some p) (hq : s.proc j = some q)
    (hne : j ≠ i) (ht : p.userTable = some t) (hu : q.userTable = some u)
    (hf : page ∈ owned s.phys.mem t) : page ∉ owned s.phys.mem u := by
  obtain ⟨L, hperm⟩ := procs_pair hp hq hne
  have hroots : (userRoots s).Perm (t :: u :: L.filterMap (fun p => p.userTable)) := by
    have hmap := hperm.filterMap (fun p => p.userTable)
    simp only [List.filterMap_cons, ht, hu] at hmap
    exact hmap
  have hnodup := (List.nodup_append.mp h.pages_nodup).2.1
  rw [((hroots.append_right (building s)).flatMap_right _).nodup_iff, List.cons_append,
    List.flatMap_cons] at hnodup
  intro hg
  refine (List.nodup_append.mp hnodup).2.2 page hf page ?_ rfl
  rw [List.cons_append, List.flatMap_cons]
  exact List.mem_append_left _ hg

/-- No frame of a process holds a table. -/
theorem frame_not_table (h : Sane E pool lost s) (hx : (t, o) ∈ estate E lost s)
    (hf : frame ∈ userFrames s.phys.mem t) : frame ∉ tablePages s := by
  rw [← tables_roots E lost s]
  exact fun hq => h.spaces.not_frame hq hx hf

theorem frame_page (h : Sane E pool lost s) (hx : (t, o) ∈ estate E lost s)
    (hf : frame ∈ userFrames s.phys.mem t) : frame ∈ pool.pages :=
  h.spaces.pool.mem (List.mem_append_right _
    (List.mem_flatMap.mpr ⟨_, hx, userFrames_owned hf⟩))

/-- Writes into the frames of one process spare another one. -/
theorem spares (h : Sane E pool lost s) (hp : s.proc i = some p) (hq : s.proc j = some q)
    (hne : j ≠ i) (ht : p.userTable = some t) (hu : q.userTable = some u)
    (hw : ∀ x, m' x ≠ s.phys.mem x → ∃ f ∈ userFrames s.phys.mem t, f ≤ x ∧ x < f + 4096) :
    Spares E s u m' := by
  have hxt : _ ∈ estate E lost s := holding_mem hp ht
  have hxu : _ ∈ estate E lost s := holding_mem hq hu
  refine ⟨fun va acc pa hacc => ?_, fun x hx y hl hr => ?_, fun x hl hr => ?_⟩
  · by_contra hch
    obtain ⟨f, hf, h1, h2⟩ := hw _ hch
    obtain ⟨e, _, _, _, _, hg, rfl⟩ := h.spaces.user_access hxu hacc
    have hpf := pool.page _ (h.frame_page hxt hf)
    have hpg := pool.page _ (h.frame_page hxu hg)
    obtain rfl : f = pteToPa e := by omega
    exact h.owned_apart hp hq hne ht hu (userFrames_owned hf) (userFrames_owned hg)
  · by_contra hch
    obtain ⟨f, hf, h1, h2⟩ := hw _ hch
    have hpf := pool.page _ (h.frame_page hxt hf)
    have hpx : x % 4096 = 0 := by
      rw [← tables_roots E lost s] at hx
      exact h.spaces.pool.page (tables_claimed hx)
    obtain rfl : f = x := by omega
    exact h.frame_not_table hxt hf hx
  · by_contra hch
    obtain ⟨f, hf, h1, h2⟩ := hw _ hch
    have := pool.above f (h.frame_page hxt hf)
    omega

end Sane

/-- Isolation of two processes: no address that one maps for U-mode leads to a
frame that the other maps for U-mode, to a table, or below the page allocator's
memory; so its stores in U-mode, and what the kernel copies to it, spare the
other one. -/
theorem process_isolation (h : Reachable E reserved s) (hp : s.proc i = some p)
    (hq : s.proc j = some q) (hne : j ≠ i) (ht : p.userTable = some t) (hu : q.userTable = some u) :
    (∀ va frame, MapsUser s.phys.mem t va frame →
      (∀ vb, ¬MapsUser s.phys.mem u vb frame) ∧ frame ∉ tablePages s ∧ E.allocStart ≤ frame) ∧
    (Acts s i p t →
      (∀ va pa b, Sv39.access s.phys.mem s.hart.satp va .store .user false = some pa →
        Spares E s u (poke s.phys.mem pa b)) ∧
      ∀ ptr src r, Syscall.copyToUser s ptr src = .ok r → Spares E s u r.sys.phys.mem) := by
  obtain ⟨res, lost, _, hs⟩ := reachable_sane h
  have hxt : _ ∈ estate E lost s := holding_mem hp ht
  have hxu : _ ∈ estate E lost s := holding_mem hq hu
  refine ⟨fun va frame hmap => ?_, fun ha => ⟨fun va pa b hacc => ?_, fun ptr src r run => ?_⟩⟩
  · have hf := hs.maps_frame hxt hmap
    refine ⟨fun vb hmap' => ?_, hs.frame_not_table hxt hf, ?_⟩
    · exact hs.owned_apart hp hq hne ht hu (userFrames_owned hf)
        (userFrames_owned (hs.maps_frame hxu hmap'))
    · exact (Kalloc.seedPool E.toLayout res).above _ (hs.frame_page hxt hf)
  · rw [hs.satp ha] at hacc
    obtain ⟨e, _, _, _, _, hf, rfl⟩ := hs.spaces.user_access hxt hacc
    refine hs.spares hp hq hne ht hu fun x hx => ⟨_, hf, ?_⟩
    unfold poke at hx
    split at hx
    · omega
    · exact absurd rfl hx
  · rcases Syscall.copyToUser_spec (hs.caller ha) ptr src with ⟨_, hrun⟩ | ⟨hready, m', hrun, _, _, _, hrest⟩
    · obtain rfl := Except.ok.inj (hrun.symm.trans run)
      exact ⟨fun _ _ _ _ => rfl, fun _ _ => SameOn.refl _ _ _, fun _ _ _ => rfl⟩
    · obtain rfl := Except.ok.inj (hrun.symm.trans run)
      refine hs.spares hp hq hne ht hu fun x hx => ?_
      have huse := (hs.caller ha).ready (by simp) (by simp) hready
      by_contra hno
      refine hx (hrest x fun i hi hxi => hno ?_)
      obtain ⟨hf, hle⟩ := (huse i hi).frame
      refine ⟨_, hf, ?_⟩
      rw [hxi]
      omega

theorem Userland.acts (h : Userland s d e) (ht : d.userTable = some t) : Acts s 0 (Proc.seated d) t where
  caller := Sys.currentProc_some h.current h.proc_zero
  space := ht
  stack := by
    rw [h.hart]
    exact nofun
  settled r hr := by
    rw [h.hart] at hr
    cases List.mem_singleton.mp hr

/-- The first of the two processes stores into its stack. -/
theorem process_isolation_store : ∃ (s : Sys Nat) (t u pa : Nat), Reachable smallEnv none s ∧
    userRoots s = [t, u] ∧
    Sv39.access s.phys.mem s.hart.satp (userStackTop - 8) .store .user false = some pa ∧
    Spares smallEnv s u (poke s.phys.mem pa 7) := by
  obtain ⟨s, d, e, hu⟩ := userland Nat
  obtain ⟨t, u, ht, hu', hroots⟩ := hu.roots
  obtain ⟨_, hacts⟩ := process_isolation hu.reachable hu.proc_zero hu.proc_one (by decide) ht hu'
  obtain ⟨res, lost, _, hs⟩ := reachable_sane hu.reachable
  obtain ⟨pa, hpa⟩ : ∃ pa, Sv39.access s.phys.mem t (userStackTop - 8) .store .user false = some pa :=
    hs.program_access hu.proc_zero ht hu.first.image (.inr ⟨by decide, by decide, nofun⟩)
  rw [← hs.satp (hu.acts ht)] at hpa
  exact ⟨s, t, u, pa, hu.reachable, hroots, hpa, (hacts (hu.acts ht)).1 _ _ _ hpa⟩

end Osmium
