import Osmium.Proofs.DemandPaging

namespace Osmium
open Lib Vm Syscall

variable {T : Type} {E : Env} {pool : PagePool E.allocStart} {s s₁ s' : Sys T} {as : List Asset}

/-- The bytes of `name` stand in a process's memory at `ptr`. -/
def Spells (P : Phys) (t ptr : Nat) (name : List UInt8) : Prop :=
  ∀ k (hk : k < name.length), ∃ pa, MapsTo P t (ptr + k) pa [pteU] ∧ P.mem pa = name[k]

theorem MapsTo.mono (h : MapsTo P t va pa bits) (hsub : ∀ b ∈ bits', b ∈ bits) :
    MapsTo P t va pa bits' := by
  obtain ⟨pte, htr, hb⟩ := h
  exact ⟨pte, htr, fun b hm => hb b (hsub b hm)⟩

theorem Spells.unique (h : Spells P t ptr a) (h' : Spells P t ptr b) (hlen : a.length = b.length) :
    a = b := by
  refine List.ext_getElem hlen fun k hk hk' => ?_
  obtain ⟨pa, ⟨_, htr, _⟩, hb⟩ := h k hk
  obtain ⟨pa', ⟨_, htr', _⟩, hb'⟩ := h' k hk'
  obtain ⟨rfl, _⟩ := Prod.mk.inj (Option.some.inj (Except.ok.inj (htr.symm.trans htr')))
  exact hb.symm.trans hb'

namespace Serving

/-- `copy_from_user`, when it returns: a buffer with what stands there, or
nothing done. -/
theorem copyFromUser_works (h : Serving E pool s i p t R)
    (run : copyFromUser s ptr len = .ok r) : HeapWork E s r.sys ∧
    ((r.result = none ∧ ¬Ready s.phys.mem t [pteU] ptr len) ∨
      ∃ buf, r.result = some buf ∧ buf.bytes.length = len ∧ Spells s.phys t ptr buf.bytes) := by
  rcases copyFromUser_spec h.caller ptr len with ⟨hn, hr⟩ | ⟨hready, ⟨e, _, hr⟩ | ⟨buf, s', hw, hr⟩⟩
  · obtain rfl := Except.ok.inj (hr.symm.trans run)
    exact ⟨.refl s, .inl ⟨rfl, hn⟩⟩
  · rw [hr] at run
    cases run
  · obtain rfl := Except.ok.inj (hr.symm.trans run)
    refine ⟨?_, .inr ⟨_, rfl, by simp, fun k hk => ?_⟩⟩
    · unfold withCapacity at hw
      split at hw
      · obtain ⟨_, rfl⟩ := Prod.mk.inj (Except.ok.inj hw)
        exact .refl s
      · simp only [bind_ok, Except.ok.injEq, Prod.mk.injEq] at hw
        obtain ⟨⟨b, s₁⟩, ha, _, rfl⟩ := hw
        exact .alloc h.books.owns ha
    · rw [List.length_map, List.length_range] at hk
      have huse := h.caller.ready (by simp) (by simp) hready k hk
      refine ⟨_, (huse.mapsTo (P := s.phys) (by simp)).mono (by simp), ?_⟩
      simp

theorem dropBuf_works (h : Serving E pool s i p t ((bufBlock len buf).map .block ++ R))
    (run : dropBuf s buf = .ok s') : HeapWork E s s' := by
  cases buf with
  | none =>
    obtain rfl := Except.ok.inj run
    exact .refl s
  | some b => exact .dealloc (a := ⟨b, len⟩) (h.books.perm (.swap _ _ _)).owns run

/-- A name from user memory is found just when it stands there. -/
theorem withName_works (h : Serving E pool s i p t R) {lookup : List UInt8 → Option α}
    (run : withName s ptr len lookup = .ok r) : HeapWork E s r.2 ∧
    (∀ x buf, r.1 = some (x, buf) →
      ∃ name, name.length = len ∧ Spells s.phys t ptr name ∧ lookup name = some x) ∧
    (r.1 = none → 0 < len → len ≤ pathMax → ∀ name, name.length = len → Spells s.phys t ptr name →
      lookup name = none) := by
  unfold withName at run
  split at run
  · obtain rfl := Except.ok.inj run
    refine ⟨.refl s, (fun x buf hx => by cases hx), fun _ hpos hmax => ?_⟩
    omega
  · simp only [bind_ok] at run
    obtain ⟨c, hc, run⟩ := run
    obtain ⟨hwork, hres⟩ := h.copyFromUser_works hc
    have hserv := ((h.copyFromUser_ends ptr len).result hc).2
    rcases hres with ⟨hnone, hbad⟩ | ⟨buf, hbuf, hlen, hspell⟩
    · rw [hnone] at run
      obtain rfl := Except.ok.inj run
      refine ⟨hwork, (fun x buf hx => by cases hx), fun _ hpos _ name hl hspell => ?_⟩
      refine absurd ((ready_bytes hpos).mpr fun k hk => ?_) hbad
      obtain ⟨pa, hpa, _⟩ := hspell k (by omega)
      exact ⟨pa, hpa⟩
    · rw [hbuf] at run hserv
      dsimp only at run
      split at run
      next hy =>
        simp only [bind_ok, Except.ok.injEq] at run
        obtain ⟨s₂, hd, rfl⟩ := run
        refine ⟨hwork.trans (hserv.dropBuf_works hd), (fun x buf hx => by cases hx),
          fun _ _ _ name hl hspell' => ?_⟩
        rw [hspell'.unique hspell (hl.trans hlen.symm)]
        exact hy
      next y hy =>
        obtain rfl := Except.ok.inj run
        refine ⟨hwork, fun x b hx => ?_, fun hn => by cases hn⟩
        obtain ⟨rfl, _⟩ := Prod.mk.inj (Option.some.inj hx)
        exact ⟨buf.bytes, hlen, hspell, hy⟩

/-- It fails only for want of a buffer. -/
theorem withName_fails (h : Serving E pool s i p t R) {lookup : List UInt8 → Option α}
    (run : withName s ptr len lookup = .error e) : e = .outOfHeap ∧ s.alloc len 0 = .error e := by
  unfold withName at run
  split at run
  · cases run
  next hlen =>
    have hmax : len ≤ 64 := Nat.le_of_not_lt fun hn => hlen (.inr hn)
    rcases copyFromUser_spec h.caller ptr len with ⟨_, hr⟩ | ⟨_, ⟨e', hw, hr⟩ | ⟨buf, s', hw, hr⟩⟩
    · rw [hr, ok_bind] at run
      cases run
    · rw [hr] at run
      obtain rfl := Except.error.inj run
      unfold withCapacity at hw
      rw [if_neg fun hz => hlen (.inl hz)] at hw
      cases ha : s.alloc len 0 with
      | ok r =>
        rw [ha, ok_bind] at hw
        cases hw
      | error e'' =>
        rw [ha] at hw
        obtain rfl := Except.error.inj hw
        exact ⟨(h.books.alloc_room_ends (k := 0) (by omega)).failure ha, rfl⟩
    · have hserv := ((h.copyFromUser_ends ptr len).result hr).2
      rw [hr, ok_bind] at run
      dsimp only at run hserv
      split at run
      · cases buf with
        | none => cases run
        | some b =>
          obtain ⟨s₂, hd⟩ := Books.dealloc_total (a := ⟨b, len⟩) (hserv.books.perm (.swap _ _ _))
          rw [show dropBuf s' (some b) = .ok s₂ from hd, ok_bind] at run
          cases run
      · cases run

end Serving

/-- A table translates every address as before, to the same bytes where the user
can see them. -/
def SameSpace (s s' : Sys T) (r : Nat) : Prop :=
  ∀ va < vaMax, translate s'.phys r va = translate s.phys r va ∧
    ∀ pa pte, translate s.phys r va = .ok (some (pa, pte)) → pte &&& pteU ≠ 0 →
      s'.phys.mem pa = s.phys.mem pa

theorem Sys.alloc_fails (hm : s'.phys.mem = s.phys.mem) (hh : s'.heap = s.heap)
    (run : s'.alloc size k = .error e) : s.alloc size k = .error e := by
  unfold Sys.alloc at run ⊢
  cases hr : Heap.request size k with
  | error e' =>
    rw [hr] at run
    exact run
  | ok r =>
    rw [hr, ok_bind, hm, hh] at run
    rw [ok_bind]
    cases ha : Heap.allocInner s.phys.mem s.heap r with
    | error e' =>
      rw [ha] at run
      exact run
    | ok q =>
      rw [ha, ok_bind] at run
      rw [ok_bind]
      obtain ⟨o, m, h⟩ := q
      cases o with
      | none => exact run
      | some p => cases run

theorem SameSpace.trans (h : SameSpace s s₁ r) (h' : SameSpace s₁ s' r) : SameSpace s s' r := by
  refine fun va hva => ⟨(h' va hva).1.trans (h va hva).1, fun pa pte htr hu => ?_⟩
  rw [(h' va hva).2 pa pte ((h va hva).1.trans htr) hu]
  exact (h va hva).2 pa pte htr hu

theorem Vm.Laid.mono (h : Laid m kroot hs) (hsub : ∀ x ∈ hs', x ∈ hs) : Laid m kroot hs' :=
  ⟨h.kernel, fun x hx => h.roots x (hsub x hx), fun x hx => h.fits x (hsub x hx)⟩

/-- Some of the books' tables, left alone. -/
theorem Leaves.same_space {bs : List Asset} (h : Leaves E as s s') (hb : Books E pool s bs)
    (hsub : ∀ a ∈ as, a ∈ bs) (hr : r = s.kernelRoot ∨ r ∈ rootsOf E as) : SameSpace s s' r := by
  have hin : ∀ x ∈ as.flatMap (Asset.holdings E), x ∈ bs.flatMap (Asset.holdings E) := by
    intro x hx
    obtain ⟨a, ha, hx⟩ := List.mem_flatMap.mp hx
    exact List.mem_flatMap.mpr ⟨a, hsub a ha, hx⟩
  have hlaid := hb.owns.spaces.toLaid.mono hin
  refine fun va hva => ⟨translate_congr (h.look_eq hlaid hr va), fun pa pte htr hu => ?_⟩
  rw [translate_eq _ _ _ hva] at htr
  obtain ⟨e, hl, he⟩ := Option.map_eq_some_iff.mp (Except.ok.inj htr)
  obtain ⟨rfl, rfl⟩ := Prod.mk.inj he
  rcases hr with rfl | hr
  · exact absurd (hlaid.kernel.noUser va e hl) hu
  · obtain ⟨x, hx, rfl⟩ := List.mem_map.mp hr
    have hslot := user_slot (hlaid.roots x hx) hlaid.kernel hl hu
    have hframe := userFrames_owned (look_userFrame hslot hl)
    have hal := hb.owns.spaces.pool.page
      (List.mem_append_right _ (List.mem_flatMap.mpr ⟨x, hin x hx, hframe⟩))
    have hor : pteToPa e ||| va % 4096 = pteToPa e + va % 4096 := by
      rw [← Nat.div_add_mod (pteToPa e) 4096, hal, Nat.add_zero]
      exact (Nat.two_pow_add_eq_or_of_lt (show va % 4096 < 2 ^ 12 from Nat.mod_lt va (by decide)) _).symm
    have hlt : va % 4096 < 4096 := Nat.mod_lt va (by decide)
    show s'.phys.mem (pteToPa e ||| va % 4096) = s.phys.mem (pteToPa e ||| va % 4096)
    rw [hor]
    exact h.held _ (List.mem_append_right _ (List.mem_flatMap.mpr ⟨x, hx, hframe⟩)) _
      (by omega) (by omega)

theorem live_rooted {lost : List Heap.Live}
    (hperm : (lost.map Asset.block ++ stock E s).Perm (.proc d :: R))
    (ht : d.userTable = some t) (hr : LiveRoot s r) : r = s.kernelRoot ∨ r ∈ rootsOf E (.proc d :: R) := by
  rcases live_roots hperm ht hr with rfl | hk | hin
  · right
    simp [rootsOf, Asset.holdings, ht]
  · exact .inl hk
  · right
    rw [← List.singleton_append, rootsOf_append]
    exact List.mem_append_right _ hin

theorem Leaves.claimed_eq (h : Leaves E as s s') :
    claimed s'.phys.mem s.kernelRoot (as.flatMap (Asset.holdings E)) =
      claimed s.phys.mem s.kernelRoot (as.flatMap (Asset.holdings E)) :=
  claimed_congr fun q hq => h.held q (tables_claimed hq)

theorem Leaves.owned_eq (h : Leaves E as s s') (hr : r ∈ rootsOf E as) :
    owned s'.phys.mem r = owned s.phys.mem r := by
  obtain ⟨x, hx, rfl⟩ := List.mem_map.mp hr
  refine owned_congr fun q hq => h.held q ?_
  exact tables_claimed (List.mem_append_right _ (List.mem_flatMap.mpr ⟨x, hx, hq⟩))

theorem Shows.same (h : Shows s.phys t va perm b) (hs : SameSpace s s' t) (hva : va < vaMax)
    (hu : perm &&& pteU ≠ 0) : Shows s'.phys t va perm b := by
  obtain ⟨pa, pte, htr, hperm, hb⟩ := h
  refine ⟨pa, pte, (hs va hva).1.trans htr, hperm, ?_⟩
  rw [(hs va hva).2 pa pte htr ?_]
  · exact hb
  · intro hz
    refine hu ?_
    rw [← hperm, rights, Nat.and_assoc]
    show pte &&& pteU = 0
    exact hz

/-- The image lies below the heap. -/
theorem Loaded.from (h : Loaded E m prog P t) (hm : ∀ x < E.heapStart, m x = m' x) :
    Loaded E m' prog P t := by
  have hend := (E.images prog).2
  have hrange := E.allocStart_eq
  have hr := E.rodata
  have hd := E.data
  refine ⟨fun n hn => ?_, h.rest, h.stack, h.only⟩
  rw [← hm _ (by unfold Layout.heapStart; omega)]
  exact h.text n hn

theorem Loaded.same (h : Loaded E m prog s.phys t) (hs : SameSpace s s' t) :
    Loaded E m prog s'.phys t := by
  have hmax : Proc.npages E prog * 4096 ≤ 0xfff000 := (Books.npages_fits E prog).2
  have hlen : (E.image prog).2 ≤ Proc.npages E prog * 4096 := by
    unfold Proc.npages pageSize
    omega
  have hlow : ∀ n < Proc.npages E prog * 4096, userText + n < vaMax := by
    intro n hn
    show 0x40000000 + n < 0x4000000000
    omega
  refine ⟨fun n hn => ?_, fun n hlo hhi => ?_, fun n hn => ?_, fun va hva pa pte htr hu => ?_⟩
  · exact (h.text n hn).same hs (hlow n (by omega)) (by decide)
  · exact (h.rest n hlo hhi).same hs (hlow n hhi) (by decide)
  · refine (h.stack n hn).same hs ?_ (by decide)
    show 0x40fff000 + n < 0x4000000000
    have hn : n < 4096 := hn
    omega
  · rw [(hs va hva).1] at htr
    exact h.only va hva pa pte htr hu

/-- What user mode reaches lies in the lower half. -/
theorem Vm.Laid.user_low (h : Laid m kroot hs) (hx : (t, o) ∈ hs)
    (mapped : Sv39.access m t va acc .user false = some pa) : va < vaMax := by
  obtain ⟨e, _, _, _, hslot, _⟩ := h.user_access hx mapped
  have hcanon : Sv39.canonical va = true := by
    unfold Sv39.access at mapped
    split at mapped
    · assumption
    · cases mapped
  rw [vpn_two] at hslot
  unfold Sv39.canonical at hcanon
  rw [decide_eq_true_eq] at hcanon
  have hslot : va / 1073741824 % 512 = 1 := hslot
  show _ < 2 ^ 38
  omega

/-- A program is about to make a system call. -/
structure AtEcall (s : Sys T) (i : Nat) (p : Process T) (t : Nat) (call : Call) : Prop extends
    Inside s i p t where
  fetched : (Sv39.access s.phys.mem s.hart.satp s.hart.pc .fetch .user false).isSome
  asks : Syscall.call (s.hart.regs .a7) = some call

/-- The frame of a call, past the instruction. -/
def Sys.pastCall (s : Sys T) : TrapFrame := { Trap.frameOf s.hart with sepc := s.hart.pc + 4 }

/-- A program can make any call. -/
theorem Inside.at_ecall (h : Inside s i p t) (hr : Reachable E reserved s) (hi : p.image = some prog)
    (n a0 a1 : Nat) (hcall : call n = some c) :
    AtEcall (s.computed (callRegs n a0 a1) userText) i p t c :=
  ⟨h.computed _ _, h.fetches hr hi, hcall⟩

namespace AtEcall

variable {call : Call}

theorem step (h : AtEcall s i p t call) (hv : stval < 2 ^ 64) : Step E s (s.trapped 8 stval) :=
  .userTrap 8 stval hv h.code (fun _ => h.fetched)

theorem pc_lt (h : AtEcall s i p t call) (hr : Reachable E reserved s) : s.hart.pc < vaMax := by
  obtain ⟨res, lost, _, hs⟩ := reachable_sane hr
  obtain ⟨pa, hpa⟩ := Option.isSome_iff_exists.mp h.fetched
  rw [hs.satp h.acts] at hpa
  exact hs.spaces.user_low (holding_mem (Sys.currentProc_eq h.caller).2 h.space) hpa

end AtEcall

end Osmium
