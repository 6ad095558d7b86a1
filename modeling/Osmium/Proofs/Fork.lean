import Osmium.Proofs.ConsoleRead
import Osmium.Proofs.Exec

namespace Osmium
open Lib Vm Syscall

variable {T : Type} {E : Env} {pool : PagePool E.allocStart} {s s₁ s₂ s' : Sys T} {as R : List Asset}

theorem Vm.pteToPa_or (e va : Nat) : pteToPa e ||| va % 4096 = pteToPa e + va % 4096 := by
  have hal : pteToPa e % 4096 = 0 := by
    unfold pteToPa
    rw [Nat.shiftLeft_eq]
    omega
  rw [← Nat.div_add_mod (pteToPa e) 4096, hal, Nat.add_zero]
  exact (Nat.two_pow_add_eq_or_of_lt (show va % 4096 < 2 ^ 12 from Nat.mod_lt va (by decide)) _).symm

/-- What an address shows, by the leaf of the table. -/
theorem shows_look {P : Phys} (hva : va < vaMax) : Shows P t va perm b ↔
    ∃ e, look va 2 P.mem t = some e ∧ rights e = perm ∧ P.mem (pteToPa e + va % 4096) = b := by
  unfold Shows
  rw [translate_eq _ _ _ hva]
  unfold lookup
  constructor
  · rintro ⟨pa, pte, htr, hperm, hb⟩
    obtain ⟨e, hl, he⟩ := Option.map_eq_some_iff.mp (Except.ok.inj htr)
    obtain ⟨rfl, rfl⟩ := Prod.mk.inj he
    exact ⟨e, hl, hperm, by rw [← pteToPa_or]; exact hb⟩
  · rintro ⟨e, hl, hperm, hb⟩
    refine ⟨_, e, by rw [hl, Option.map_some], hperm, ?_⟩
    rw [show pteToPa e ||| va % pageSize = pteToPa e + va % 4096 from pteToPa_or e va]
    exact hb

theorem rights_user (h : rights e = perm) (hu : perm &&& pteU ≠ 0) : e &&& pteU ≠ 0 := by
  intro hz
  refine hu ?_
  rw [← h, rights, Nat.and_assoc]
  exact hz

/-- A copied page shows the same bytes with the same rights. -/
theorem Vm.Copied.shows {P P' : Phys} (h : Copied P.mem t P'.mem t' va)
    (hl : look va 2 P.mem t = some e) :
    ∃ e', look va 2 P'.mem t' = some e' ∧ rights e' = rights e ∧
      P'.mem (pteToPa e' + va % 4096) = P.mem (pteToPa e + va % 4096) := by
  unfold Copied at h
  rw [hl] at h
  obtain ⟨f, hal, hf, hlook, hbytes⟩ := h
  have hword : f < 2 ^ 64 := Nat.lt_trans hf (by decide)
  have hmask : e &&& permMask < 256 := Nat.lt_of_le_of_lt Nat.and_le_right (by decide)
  refine ⟨_, hlook, ?_, ?_⟩
  · unfold rights
    rw [leaf_flag hal hword hmask (by decide) (by decide), Nat.and_assoc]
    rfl
  · rw [(leaf_pte hal hword hmask).2.1]
    exact hbytes _ (Nat.mod_lt va (by decide))

/-- A clone shows a user what the original shows. -/
theorem Vm.Cloned.shows {L : Layout} {pool : PagePool L.allocStart} {P P' : Phys}
    (h : Cloned pool P.mem kroot t t' held (fun _ _ => True) P') (hroot : UserRoot P.mem kroot t)
    (hk : KernelMap P.mem kroot) (hk' : KernelMap P'.mem kroot) (hva : va < vaMax)
    (hu : perm &&& pteU ≠ 0) : Shows P' t' va perm b ↔ Shows P t va perm b := by
  rw [shows_look hva, shows_look hva]
  constructor
  · rintro ⟨e', hl', hperm, hb⟩
    have hslot := user_slot h.root hk' hl' (rights_user hperm hu)
    have hcopy := h.copied va hva hslot trivial
    cases hl : look va 2 P.mem t with
    | none =>
      unfold Copied at hcopy
      rw [hl] at hcopy
      rw [hcopy] at hl'
      cases hl'
    | some e =>
      obtain ⟨e'', hl'', hr, hm⟩ := hcopy.shows hl
      obtain rfl := Option.some.inj (hl'.symm.trans hl'')
      exact ⟨e, rfl, hr.symm.trans hperm, hm.symm.trans hb⟩
  · rintro ⟨e, hl, hperm, hb⟩
    have hslot := user_slot hroot hk hl (rights_user hperm hu)
    obtain ⟨e', hl', hr, hm⟩ := (h.copied va hva hslot trivial).shows hl
    exact ⟨e', hl', hr.trans hperm, hm.trans hb⟩

/-- Publication: into an empty slot, and nothing else but the table's own buffer. -/
theorem Books.publish_works (h : Books E pool s as) (hr : Roomy s) (d : ProcData) :
    Ends (· = .outOfHeap) (Proc.publish s d) (fun s' => Books E pool s' as ∧
      HeapWork E { s with procs := s'.procs, procsPtr := s'.procsPtr, procsCap := s'.procsCap } s' ∧
      ∃ j, s.proc j = none ∧ ∀ k, s'.proc k = if k = j then some (Proc.fresh d) else s.proc k) := by
  have hgrow := h.growProcs_room_ends hr
  refine ⟨fun {s'} run => ⟨(h.publish_ends hr d).result run, ?_⟩, fun {e} run => ?_⟩
  · obtain ⟨s₁, j, hs₁, hnone, he, hproc, _⟩ := Proc.publish_eq run
    refine ⟨?_, j, hnone, hproc⟩
    have hw : HeapWork E { s with procsPtr := s₁.procsPtr, procsCap := s₁.procsCap } s₁ := by
      rcases hs₁ with rfl | hg
      · exact .refl _
      · exact (hgrow.result hg).2
    rw [he]
    exact ⟨by rw [hw.only]; rfl, hw.head, hw.count, hw.heap⟩
  · exact (h.publish_ends hr d).failure run

/-- In U-mode no `push_off` is open. -/
theorem Inside.depth (h : Inside s i p t) (hr : Reachable E reserved s) : s.hart.noff = 0 := by
  obtain ⟨S, lvl, top, hh⟩ := hr.controlled
  obtain ⟨_, rfl, _⟩ := hh.leads h.code
  exact hh.reads

/-- What a call leaves behind that has made a process and numbered it. -/
def Sys.After (s s' : Sys T) (pid : Nat) : Prop :=
  s' = { s with
    phys := s'.phys
    heap := s'.heap
    procs := s'.procs
    procsPtr := s'.procsPtr
    procsCap := s'.procsCap
    nextPid := s.nextPid + 1
    hart := { s.hart with
      intena := false
      regs := s.hart.regs.set .a0 pid
      pc := s.hart.pc + 4 } }

/-- A process has forked: its child is in slot `j`, with the space `t'`. -/
structure Forked (E : Env) (s s' : Sys T) (p : Process T) (t j : Nat) (d : ProcData) (t' : Nat) : Prop where
  rest : s.After s' d.pid
  slot : s.proc j = none ∧ s'.proc j = some (Proc.fresh d)
  others : ∀ k, k ≠ j → s'.proc k = s.proc k
  pid : d.pid = s.nextPid ∧ ∀ k q, s.proc k = some q → q.pid ≠ d.pid
  copied : d.heapBase = p.heapBase ∧ d.heapBrk = p.heapBrk ∧ d.fds = p.fds ∧ d.image = p.image ∧
    d.userTable = some t' ∧ d.pageTable = t'
  frame : d.entry = .forkretBody ∧ ∃ b f, d.forkFrame = some (b, f) ∧
    f.regs = s.hart.regs.set .a0 0 ∧ f.sepc = s.hart.pc + 4
  space : ∀ va < vaMax, ∀ perm b, perm &&& pteU ≠ 0 →
    (Shows s'.phys t' va perm b ↔ Shows s.phys t va perm b)
  pages : ∃ free free', Chain (load64 s.phys.mem) s.phys.head free ∧
    Chain (load64 s'.phys.mem) s'.phys.head free' ∧ free.Nodup ∧
    (free' ++ owned s'.phys.mem t').Perm free
  spaces : ∀ r, LiveRoot s r → SameSpace s s' r
  kernel : ∀ x < E.heapStart, s'.phys.mem x = s.phys.mem x

theorem SameSpace.shows (h : SameSpace s s' t) (hva : va < vaMax) (hu : perm &&& pteU ≠ 0) :
    Shows s'.phys t va perm b ↔ Shows s.phys t va perm b := by
  refine ⟨?_, fun hs => hs.same h hva hu⟩
  rintro ⟨pa, pte, htr, hperm, hb⟩
  rw [(h va hva).1] at htr
  rw [(h va hva).2 pa pte htr (rights_user hperm hu)] at hb
  exact ⟨pa, pte, htr, hperm, hb⟩

/-- A new space takes its pages off the free list. -/
theorem pages_taken {P P' : Phys} (hp : Pool pool P held) (hp' : Pool pool P' (new ++ held)) :
    ∃ free free', Chain (load64 P.mem) P.head free ∧ Chain (load64 P'.mem) P'.head free' ∧
      free.Nodup ∧ (free' ++ new).Perm free := by
  obtain ⟨free, hc, _, hall⟩ := hp
  obtain ⟨free', hc', _, hall'⟩ := hp'
  rw [← List.append_assoc] at hall'
  refine ⟨free, free', hc, hc', ?_, (List.perm_append_right_iff held).mp (hall'.trans hall.symm)⟩
  exact (List.nodup_append.mp (hall.nodup_iff.mpr pool.nodup)).1

namespace Books.Bearing

variable {P : Phys} {d : ProcData} {f : TrapFrame} {parent : ProcData}

theorem table (h : Bearing E pool s as parent t f d t' P s') : d.userTable = some t' := by
  obtain ⟨_, _, _, rfl⟩ := h.child
  rfl

/-- From the clone to the published child nothing but the heap is touched. -/
theorem same_space (h : Bearing E pool s as parent t f d t' P s₁) (hb : Books E pool s₂ (.proc d :: as))
    (h₁ : s₂.phys = s₁.phys) (hl₂ : Leaves E (.proc d :: as) s₂ s') :
    SameSpace { s with phys := P } s' t' := by
  have hl : Leaves E (.table t' (some (planOf E parent)) :: as) { s with phys := P } s₁ :=
    .of_heap h.space (by rw [h.work.only]) h.work.heap
  have hfirst := hl.same_space h.space (fun _ ha => ha)
    (.inr (show t' ∈ rootsOf E _ by simp [rootsOf, Asset.holdings]))
  have hsecond := hl₂.same_space hb (fun _ ha => ha)
    (.inr (show t' ∈ rootsOf E _ by simp [rootsOf, Asset.holdings, h.table]))
  refine hfirst.trans fun va hva => ?_
  rw [← h₁]
  exact hsecond va hva

theorem leaves (h : Bearing E pool s as parent t f d t' P s₁) (hl₂ : Leaves E (.proc d :: as) s₂ s')
    (h₁ : s₂.phys = s₁.phys) (hroot : s₂.kernelRoot = s.kernelRoot) : Leaves E as s s' := by
  have hclone : Leaves E as s { s with phys := P } := .of_spared (.of_pool h.cloned.pool h.cloned.writes)
  have hl : Leaves E (.table t' (some (planOf E parent)) :: as) { s with phys := P } s₂ :=
    .of_heap h.space hroot (by rw [h₁]; exact h.work.heap)
  refine hclone.trans ((hl.mono fun a ha => List.mem_cons_of_mem _ ha).trans ?_)
  exact hl₂.mono fun a ha => List.mem_cons_of_mem _ ha

/-- What the child's space looks like in the end, and where its pages come from. -/
theorem spaces (h : Bearing E pool s as parent t f d t' P s₁) (hbooks : Books E pool s as)
    (hparent : .proc parent ∈ as) (ht : parent.userTable = some t)
    (hb : Books E pool s₂ (.proc d :: as)) (h₁ : s₂.phys = s₁.phys) (hroot : s₂.kernelRoot = s.kernelRoot)
    (hl₂ : Leaves E (.proc d :: as) s₂ s') (hb' : Books E pool s' (.proc d :: as)) :
    (∀ va < vaMax, ∀ perm b, perm &&& pteU ≠ 0 → (Shows s'.phys t' va perm b ↔ Shows s.phys t va perm b)) ∧
    ∃ free free', Chain (load64 s.phys.mem) s.phys.head free ∧
      Chain (load64 s'.phys.mem) s'.phys.head free' ∧ free.Nodup ∧
      (free' ++ owned s'.phys.mem t').Perm free := by
  have hsp := hbooks.owns.spaces
  have hx : (t, some (planOf E parent)) ∈ as.flatMap (Asset.holdings E) := by
    refine List.mem_flatMap.mpr ⟨_, hparent, ?_⟩
    rw [Asset.holdings, ht]
    exact List.mem_cons_self
  have hsame := h.same_space hb h₁ hl₂
  have hleft := h.leaves hl₂ h₁ hroot
  refine ⟨fun va hva perm b hu => ?_, ?_⟩
  · rw [hsame.shows hva hu]
    exact h.cloned.shows (hsp.roots _ hx) hsp.kernel h.space.owns.spaces.kernel hva hu
  · have hp' := hb'.owns.spaces.pool
    rw [List.flatMap_cons, Asset.holdings, h.table] at hp'
    refine pages_taken hsp.pool ?_
    rw [← hleft.claimed_eq, ← hleft.root]
    exact hp'.perm (claimed_cons _ _ _ _)

end Books.Bearing

theorem AtEcall.dispatches_fork (h : AtEcall s i p t .fork) (hr : Reachable E reserved s) (junk : Regs) :
    exec E junk (s.trapped 8 stval) (.kerneltrap (Trap.frameOf s.hart) 8 stval) [] =
      .ok ((s.trapped 8 stval).goto [.fork s.pastCall]) := by
  have hpc : s.hart.pc < 2 ^ 38 := h.pc_lt hr
  show dispatch E (s.trapped 8 stval) (Trap.frameOf s.hart) = _
  unfold dispatch
  rw [show Heap.checked ((Trap.frameOf s.hart).sepc + 4) = .ok (s.hart.pc + 4) from
    if_pos (show s.hart.pc + 4 < 2 ^ 64 by omega), ok_bind]
  dsimp only
  rw [show call ({ Trap.frameOf s.hart with sepc := s.hart.pc + 4 } : TrapFrame).a7 = some .fork from h.asks]
  rfl

/-- The hart on its way back from a call that went one `push_off` deep. -/
theorem Inside.call_returns {c : Sys T} (h : Inside s i p t) (hdepth : s.hart.noff = 0) (stval : Nat)
    (hc : c.hart = Hart.masked { (s.trapped 8 stval).hart with code := k } 0) (result : Nat) :
    (Trap.ret c (s.pastCall.setA0 result)).hart = { s.hart with
      intena := false
      regs := s.hart.regs.set .a0 result
      pc := s.hart.pc + 4 } := by
  have hregs := (restore_all (s.pastCall.setA0 result) c.hart.regs).1
  obtain ⟨hcode, hstack, _, _⟩ := h
  unfold Trap.ret
  dsimp only
  rw [hregs, hc]
  cases hh : s.hart with
  | mk code stack sie noff intena satp sscratch regs pc =>
    rw [hh] at hcode hstack hdepth
    obtain rfl : code = [.umode] := hcode
    obtain rfl : stack = .user := hstack
    obtain rfl : noff = 0 := hdepth
    simp only [Sys.trapped, Trap.fromUser, Trap.frameOf, Sys.pastCall, TrapFrame.setA0, Hart.masked, hh]

/-- The last lines of `spawn_with` in a call, and the way back. Interrupts stay
off, so nobody sees the new process before the caller has its number. -/
theorem Inside.publishes {c : Sys T} (h : Inside s i p t) (hdepth : s.hart.noff = 0) (stval : Nat)
    (hc : c = { s with
      phys := c.phys
      heap := c.heap
      nextPid := s.nextPid + 1
      hart := { (s.trapped 8 stval).hart with code := Proc.publishing d ++ [.sysRet s.pastCall d.pid] } })
    (hb : Books E pool c as) (hroom : Roomy s) (hlack : lack .outOfHeap)
    (next : ∀ s' j, s.After s' d.pid → Books E pool s' as → HeapOnly E.toLayout c.phys.mem s'.phys.mem →
      s.proc j = none → (∀ k, s'.proc k = if k = j then some (Proc.fresh d) else s.proc k) → post s') :
    Must (Step E) (Stops E) lack post c := by
  generalize c.phys = P, c.heap = H at hc
  subst hc
  refine .piece rfl rfl rfl fun junk => .of_ok (exec_pushOff E junk (by rfl) (by exact hdepth) _) ?_
  generalize hc₁ : Sys.goto _ _ = c₁
  have hb₁ : Books E pool c₁ as := by
    rw [← hc₁]
    exact hb.congr rfl rfl rfl rfl rfl
  refine .piece (i := .publish d) (k := [.popOff, .sysRet s.pastCall d.pid]) (by rw [← hc₁]; rfl)
    (by rw [← hc₁]; rfl) rfl fun junk => ?_
  refine Ends.bind ((hb₁.publish_works (by rw [← hc₁]; exact hroom) d).weaken fun _ he => he ▸ hlack)
    fun s₃ _ ⟨hb₃, hw₃, j, hnone, hproc⟩ => .ok ?_
  subst hc₁
  have hgo : s₃.goto [.popOff, .sysRet s.pastCall d.pid] = { s₃ with
      hart := Hart.masked { (s.trapped 8 stval).hart with code := [.popOff, .sysRet s.pastCall d.pid] } 1 } := by
    rw [hw₃.only]
    rfl
  rw [hgo]
  refine .piece rfl rfl rfl fun junk => .of_ok (exec_popOff E junk s₃ _ 0 _) ?_
  refine .piece rfl rfl rfl fun junk => .of_ok rfl (.arrived (next _ j ?_ ?_ hw₃.heap hnone hproc))
  · have hhart := h.call_returns hdepth stval (c := Sys.goto { s₃ with
      hart := Hart.masked { (s.trapped 8 stval).hart with code := [.popOff, .sysRet s.pastCall d.pid] } 0 }
        [.sysRet s.pastCall d.pid]) rfl d.pid
    unfold Sys.After
    rw [← hhart, hw₃.only]
    rfl
  · exact hb₃.congr rfl rfl rfl rfl rfl

/-- `SYS_FORK` up to its return in the parent. -/
theorem AtEcall.forks (hcall : AtEcall s i p t .fork) (h : Reachable E reserved s) (stval : Nat) :
    Must (Step E) (Stops E)
      (fun e => e = .outOfHeap ∨
        e = .outOfPages ∧ s.phys.freePages < 1 + 3 * (userFrames s.phys.mem t).length)
      (fun s' => ∃ j d t', Forked E s s' p t j d t') (s.trapped 8 stval) := by
  obtain ⟨res, lost, _, hsane⟩ := reachable_sane h
  obtain ⟨R, hperm, hserv⟩ := hsane.serving hcall.acts
  have hbooks := (hcall.trapped_serving hserv 8 stval).books
  refine .piece rfl rfl rfl fun junk => .of_ok (hcall.dispatches_fork h junk) ?_
  refine .piece rfl rfl rfl fun junk => ?_
  have hbooks₁ : Books E _ ((s.trapped 8 stval).goto [.fork s.pastCall]) (.proc p.toProcData :: R) :=
    hbooks.congr rfl rfl rfl rfl rfl
  refine (hbooks₁.fork_works hcall.caller List.mem_cons_self hcall.space).mono ?_
  rintro _ ⟨d, t', P, s₁, hb, rfl⟩
  have hbooks₂ : Books E (Kalloc.seedPool E.toLayout res)
      (s₁.goto (Proc.publishing d ++ [.sysRet s.pastCall d.pid])) (.proc d :: .proc p.toProcData :: R) :=
    hb.books.congr rfl rfl rfl rfl rfl
  have hroot : s₁.kernelRoot = s.kernelRoot := by rw [hb.work.only]; rfl
  refine hcall.publishes (hcall.depth h) stval (by rw [hb.work.only]; rfl) hbooks₂ hsane.room (.inl rfl)
    fun s' j hafter hb' hheap hnone hproc => ⟨j, d, t', ?_⟩
  have hl : Leaves E (.proc d :: .proc p.toProcData :: R) _ s' :=
    .of_heap hbooks₂ (by rw [hafter]; exact hroot.symm) hheap
  obtain ⟨hspace, hpages⟩ := hb.spaces hbooks₁ List.mem_cons_self hcall.space hbooks₂ rfl hroot hl hb'
  have hleft : Leaves E (.proc p.toProcData :: R) s s' := by
    have hl := hb.leaves hl rfl hroot
    exact ⟨hl.root, hl.held, hl.image⟩
  obtain ⟨b, kstack, box, hd⟩ := hb.child
  refine
    { rest := hafter
      slot := ⟨hnone, (hproc j).trans (if_pos rfl)⟩
      others := fun k hk => (hproc k).trans (if_neg hk)
      pid := ⟨by rw [hd]; rfl, fun k q hq => ?_⟩
      copied := by rw [hd]; exact ⟨rfl, rfl, rfl, rfl, rfl, rfl⟩
      frame := ⟨by rw [hd]; rfl, b, s.pastCall.setA0 0, by rw [hd]; rfl, rfl, rfl⟩
      space := hspace
      pages := hpages
      spaces := fun r hr => ?_
      kernel := hleft.image }
  · have hin : q.toProcData ∈ (lost.map Asset.block ++ stock E s).flatMap Asset.datas :=
      List.mem_flatMap.mpr ⟨_, List.mem_append_right _ (Sane.in_stock hq), List.mem_cons_self⟩
    have hlt := (hsane.ledger.roll.pids q.toProcData hin).2
    rw [hd]
    exact Nat.ne_of_lt hlt
  · exact hleft.same_space hserv.books (fun _ ha => ha) (live_rooted hperm hcall.space hr)

end Osmium
