import Osmium.Proofs.Ecall

namespace Osmium
open Lib Vm Syscall

variable {T : Type} {E : Env} {pool : PagePool E.allocStart} {s s₁ s₂ s' : Sys T} {as R : List Asset}

/-- A call came back with its result, and nothing else that a process has or
sees is different. -/
structure Returned (s s' : Sys T) (result : Nat) : Prop where
  rest : s' = { s with
    phys := s'.phys
    heap := s'.heap
    hart := { s.hart with regs := s.hart.regs.set .a0 result, pc := s.hart.pc + 4 } }
  pages : s'.phys.head = s.phys.head ∧ s'.phys.freePages = s.phys.freePages
  spaces : ∀ r, LiveRoot s r → SameSpace s s' r

/-- The process in slot `i` has taken up a program, in a new space `t'` instead
of `t`. -/
structure Replaced (E : Env) (s s' : Sys T) (i : Nat) (p : Process T) (t : Nat) (prog : Program)
    (t' : Nat) : Prop where
  caller : ∃ p', s'.proc i = some p' ∧ p'.pid = p.pid ∧ p'.kstack = p.kstack ∧
    p'.kstackTop = p.kstackTop ∧ p'.box = p.box ∧ p'.fds = p.fds ∧ p'.userTable = some t' ∧
    p'.image = some prog ∧ p'.heapBase = userHeapBase ∧ p'.heapBrk = userHeapBase ∧
    p'.userEntry = userText ∧ p'.userSp = userStackTop
  current : s'.current = s.current
  others : ∀ j, j ≠ i → s'.proc j = s.proc j
  start : s'.hart.code = [.umode] ∧ s'.hart.satp = t' ∧ s'.hart.pc = userText ∧
    s'.hart.regs .sp = userStackTop ∧ s'.hart.sscratch = p.kstackTop
  space : Loaded E s.phys.mem prog s'.phys t'
  freed : ∃ free free', Chain (load64 s.phys.mem) s.phys.head free ∧
    Chain (load64 s'.phys.mem) s'.phys.head free' ∧ free'.Nodup ∧
    (∀ q ∈ owned s.phys.mem t, q ∈ free') ∧
    (free' ++ owned s'.phys.mem t').Perm (free ++ owned s.phys.mem t)
  spaces : ∀ r, LiveRoot s r → r ≠ t → SameSpace s s' r
  kernel : ∀ x < E.heapStart, s'.phys.mem x = s.phys.mem x

theorem Inside.trapped_serving (h : Inside s i p t) (hs : Serving E pool s i p t R) (cause stval : Nat) :
    Serving E pool (s.trapped cause stval) i p t R :=
  ⟨h.caller, h.space, hs.satp, hs.books.congr rfl rfl rfl rfl rfl⟩

/-- The way back from a call that has only worked on the heap. -/
theorem Inside.returned (h : Inside s i p t) (hs : Serving E pool s i p t R)
    (hlive : ∀ r, LiveRoot s r → r = s.kernelRoot ∨ r ∈ rootsOf E (.proc p.toProcData :: R))
    (hw : HeapWork E (s.trapped 8 stval) s₂) (result : Nat) :
    Returned s (Trap.ret (s₂.goto [.sysRet s.pastCall result]) (s.pastCall.setA0 result)) result := by
  have hleaves : Leaves E (.proc p.toProcData :: R) s s₂ :=
    .of_heap hs.books (by rw [hw.only]; rfl) hw.heap
  refine ⟨?_, ⟨hw.head, hw.count⟩, fun r hr => hleaves.same_space hs.books (fun _ ha => ha) (hlive r hr)⟩
  obtain ⟨hcode, hstack, _, _⟩ := h
  have hregs : restore (s.pastCall.setA0 result) (loadGp ++ [.sp]) s₂.hart.regs =
      s.hart.regs.set .a0 result := (restore_all _ _).1
  have honly := hw.only
  cases s with
  | mk phys heap kroot procs ptr cap cur next sctx npid ticks input sem chan locked boxes hart =>
    cases hart with
    | mk code stack sie noff intena satp sscratch regs pc =>
      obtain rfl : code = [.umode] := hcode
      obtain rfl : stack = .user := hstack
      rw [honly] at hregs ⊢
      unfold Trap.ret
      dsimp only [Sys.goto, Sys.trapped, Trap.fromUser, Trap.frameOf, Sys.pastCall] at hregs ⊢
      rw [hregs]
      rfl

theorem User.lookup_length (h : User.lookup name = some prog) : 0 < name.length ∧ name.length ≤ pathMax := by
  unfold User.lookup at h
  split at h
  · subst_vars; decide
  · split at h
    · subst_vars; decide
    · split at h
      · subst_vars; decide
      · split at h
        · subst_vars; decide
        · split at h
          · subst_vars; decide
          · cases h

/-- `exec` behind `load_user_image`, which nothing can stop any more. -/
theorem Books.execCommit_works (h : Books E pool s
      (.table t (some ⟨Proc.npages E prog, true, userHeapBase⟩) :: .proc p.toProcData :: as))
    (hc : s.currentProc = some (i, p)) :
    ∃ s₁, HeapWork E s s₁ ∧
      Proc.execCommit s prog t = .ok ((s₁.setProc i (Proc.takeSpace prog t)).goto (Proc.execRest t p)) ∧
      Books E pool ((s₁.setProc i (Proc.takeSpace prog t)).goto (Proc.execRest t p))
        (.proc (Proc.takeSpace prog t p).toProcData ::
          ((p.userTable.map (.table · none)).toList ++ as)) := by
  have hdrop : ∃ s₁, Proc.dropFrame s p.forkFrame = .ok s₁ ∧ HeapWork E s s₁ := by
    have hb := (h.perm (.swap _ _ _)).unframe
    cases hf : p.forkFrame with
    | none => exact ⟨s, rfl, .refl s⟩
    | some f =>
      rw [hf] at hb
      obtain ⟨s₁, hr⟩ := dealloc_total (a := ⟨f.1, Proc.frameSize⟩) hb
      exact ⟨s₁, hr, .dealloc (a := ⟨f.1, Proc.frameSize⟩) hb.owns hr⟩
  obtain ⟨s₁, hr, hw⟩ := hdrop
  have hrun : Proc.execCommit s prog t =
      .ok ((s₁.setProc i (Proc.takeSpace prog t)).goto (Proc.execRest t p)) := by
    unfold Proc.execCommit
    rw [hc]
    dsimp only
    rw [hr]
    rfl
  obtain ⟨_, _, _, hb⟩ := (h.execCommit_ends hc).result hrun
  exact ⟨s₁, hw, hrun, hb⟩

/-- Two spaces take turns in the same pool: the pages of the first one, none of
which the second one has, end up on the free list. -/
theorem pages_returned {P P' : Phys} (hp : Pool pool P (owned P.mem t ++ held))
    (hp' : Pool pool P' (owned P'.mem t' ++ held)) (hd : ∀ q ∈ owned P.mem t, q ∉ owned P'.mem t') :
    ∃ free free', Chain (load64 P.mem) P.head free ∧ Chain (load64 P'.mem) P'.head free' ∧
      free'.Nodup ∧ (∀ q ∈ owned P.mem t, q ∈ free') ∧
      (free' ++ owned P'.mem t').Perm (free ++ owned P.mem t) := by
  obtain ⟨free, hc, _, hall⟩ := hp
  obtain ⟨free', hc', _, hall'⟩ := hp'
  rw [← List.append_assoc] at hall hall'
  have hperm : (free' ++ owned P'.mem t').Perm (free ++ owned P.mem t) :=
    (List.perm_append_right_iff held).mp (hall'.trans hall.symm)
  refine ⟨free, free', hc, hc', ?_, fun q hq => ?_, hperm⟩
  · have hnodup := hall'.nodup_iff.mpr pool.nodup
    exact (List.nodup_append.mp (List.nodup_append.mp hnodup).1).1
  · have hin := hperm.mem_iff.mpr (List.mem_append_right _ hq)
    exact (List.mem_append.mp hin).resolve_right (hd q hq)

/-- The rest of `exec`, piece by piece. -/
theorem execRest_must {c : Sys T} (hcode : c.hart.code = [.intrOff, .switchTo t', .freeUserTable t,
      .enterUser pc sp top]) (hoff : c.hart.sie = false) (hroot : t' ≠ 0)
    (hfree : Proc.freeTable E c t = .ok { c with phys := P })
    (next : ∀ junk, post { c with
      phys := P
      hart := Proc.enterUser { c.hart with sie := false, satp := t' } junk pc sp top }) :
    Must (Step E) (Stops E) lack post c := by
  have hP : freeUserTable E.toLayout c.phys t = .ok P := by
    simp only [Proc.freeTable, bind_ok, Except.ok.injEq] at hfree
    obtain ⟨P', hr, he⟩ := hfree
    rw [hr, show P' = P from congrArg Sys.phys he]
  refine .piece hcode hoff rfl fun junk => .of_ok rfl ?_
  refine .piece rfl rfl rfl fun junk => .of_ok (exec_switchTo E junk hroot) ?_
  refine .piece rfl rfl rfl fun junk => .of_ok (a := Sys.goto { c with
    phys := P
    hart := { c.hart with sie := false, satp := t' } } [.enterUser pc sp top]) ?_ ?_
  · simp only [exec, Proc.freeTable, bind_ok, Except.ok.injEq]
    exact ⟨_, ⟨P, hP, rfl⟩, rfl⟩
  · exact .piece rfl rfl rfl fun junk => .of_ok rfl (.arrived (next junk))

/-- What the new space and everybody else's look like in the end. -/
theorem Filling.replaces (hs : Serving E pool s i p t R) (hl : Leaves E (.proc p.toProcData :: R) s s₁)
    (hfill : Filling E pool prog s₁ (.proc p.toProcData :: (as ++ R)) t' (Proc.npages E prog) true P)
    (hut : p.userTable = some t) (has : as.flatMap (Asset.holdings E) = [])
    (hroot : s₂.kernelRoot = s₁.kernelRoot) (hheap : HeapOnly E.toLayout P.mem s₂.phys.mem)
    (hu : d.userTable = some t')
    (hb : Books E pool s₂ (.table t none :: .proc d :: (as ++ R)))
    (hb' : Books E pool { s₂ with phys := P' } (.proc d :: (as ++ R)))
    (hspared : Spared pool s₂.kernelRoot ((.proc d :: (as ++ R)).flatMap (Asset.holdings E)) s₂.phys.mem P'.mem) :
    Loaded E s.phys.mem prog P' t' ∧ Leaves E R s { s₂ with phys := P' } ∧
    ∃ free free', Chain (load64 s.phys.mem) s.phys.head free ∧
      Chain (load64 P'.mem) P'.head free' ∧ free'.Nodup ∧
      (∀ q ∈ owned s.phys.mem t, q ∈ free') ∧
      (free' ++ owned P'.mem t').Perm (free ++ owned s.phys.mem t) := by
  have h₁ : Leaves E (.proc p.toProcData :: (as ++ R)) s₁ { s₁ with phys := P } := .of_spared hfill.spared
  have h₂ := Leaves.of_heap hfill.books hroot hheap
  have h₃ : Leaves E (.proc d :: (as ++ R)) s₂ { s₂ with phys := P' } := .of_spared hspared
  have hR : Leaves E R s { s₂ with phys := P' } := by
    refine (hl.mono fun a ha => ?_).trans ((h₁.mono fun a ha => ?_).trans
      ((h₂.mono fun a ha => ?_).trans (h₃.mono fun a ha => ?_))) <;> simp [ha]
  have hnew : t' ∈ rootsOf E (.proc d :: (as ++ R)) := by
    simp [rootsOf, Asset.holdings, hu]
  have hold : ∀ bs, t ∈ rootsOf E (.proc p.toProcData :: bs) := by
    intro bs
    simp [rootsOf, Asset.holdings, hut]
  refine ⟨?_, hR, ?_⟩
  · have hload := hfill.loaded.from fun x hx => hl.image x hx
    have hspace : SameSpace { s₁ with phys := P } { s₂ with phys := P' } t' :=
      (h₂.same_space hfill.books (fun _ ha => ha) (.inr (by simp [rootsOf, Asset.holdings]))).trans
        (h₃.same_space hb (fun a ha => List.mem_cons_of_mem _ ha) (.inr hnew))
    exact Loaded.same (s := { s₁ with phys := P }) hload hspace
  · have hp := hs.books.owns.spaces.pool
    rw [hs.holdings] at hp
    have hp' := hb'.owns.spaces.pool
    rw [List.flatMap_cons, List.flatMap_append, has, Asset.holdings, hu] at hp'
    refine pages_returned (hp.perm (claimed_cons _ _ _ _)) ?_ fun q hq hq' => ?_
    · rw [← hR.claimed_eq, ← hR.root]
      exact hp'.perm (claimed_cons _ _ _ _)
    · rw [h₃.owned_eq hnew, h₂.owned_eq (by simp [rootsOf, Asset.holdings])] at hq'
      rw [← hl.owned_eq (hold R), ← h₁.owned_eq (hold _)] at hq
      have hnodup := hfill.books.owns.spaces.pool.nodup
      rw [List.flatMap_cons, List.flatMap_cons, Asset.holdings, Asset.holdings, hut] at hnodup
      have hpair := (List.nodup_append.mp hnodup).2.1
      exact (List.nodup_append.mp hpair).2.2 q hq' q (List.mem_append_left _ hq) rfl

/-- `exec` from the loaded image on: onto the new space, and the old one goes. -/
theorem Filling.takes_over
    (hfill : Filling E pool prog s₁ (.proc p.toProcData :: (as ++ R)) t' (Proc.npages E prog) true P)
    (hs : Serving E pool s i p t R)
    (hlive : ∀ r, LiveRoot s r → r = t ∨ r = s.kernelRoot ∨ r ∈ rootsOf E R)
    (hl : Leaves E (.proc p.toProcData :: R) s s₁) (hoff : s₁.hart.sie = false)
    (hsame : s₁.procs = s.procs ∧ s₁.current = s.current) (has : as.flatMap (Asset.holdings E) = []) :
    Must (Step E) (Stops E) lack (fun s' => Replaced E s s' i p t prog t')
      (Sys.goto { s₁ with phys := P } [.execCommit prog t']) := by
  obtain ⟨hcur, hp⟩ := Sys.currentProc_eq hs.current
  have hp₁ : ∀ j, s₁.proc j = s.proc j := fun j => by
    unfold Sys.proc
    rw [hsame.1]
  have hb₂ : Books E pool (Sys.goto { s₁ with phys := P } [.execCommit prog t'])
      (.table t' (some ⟨Proc.npages E prog, true, userHeapBase⟩) :: .proc p.toProcData :: (as ++ R)) :=
    hfill.books.congr rfl rfl rfl rfl rfl
  obtain ⟨s₃, hw, hcommit, hb₄⟩ := hb₂.execCommit_works (i := i)
    (Sys.currentProc_some (hsame.2.trans hcur) ((hp₁ i).trans hp))
  have hrest : Proc.execRest t' p = [.intrOff, .switchTo t', .freeUserTable t,
      .enterUser userText userStackTop p.kstackTop] := by
    unfold Proc.execRest
    rw [hs.space]
    rfl
  rw [hrest] at hcommit hb₄
  rw [hs.space] at hb₄
  have hpos : t' ≠ 0 := by
    have hin := hfill.books.owns.spaces.pool.mem (p := t')
      (List.mem_append_right _ (List.mem_append_left _ (root_owned _ _)))
    exact Nat.ne_of_gt (pool.pos t' hin)
  have hproc₃ : ∀ j, s₃.proc j = s.proc j := fun j => (hw.only.proc j).trans (hp₁ j)
  have hproc : ∀ j, (s₃.setProc i (Proc.takeSpace prog t')).proc j =
      if j = i then some (Proc.takeSpace prog t' p) else s.proc j := by
    intro j
    rw [Sys.proc_setProc, hproc₃]
    split
    next hj =>
      rw [hj, hp]
      rfl
    · rfl
  have hcur₃ : s₃.current = s.current := by
    rw [hw.only]
    exact hsame.2
  have hsie₃ : s₃.hart.sie = false := by
    rw [hw.only]
    exact hoff
  have hroot₃ : s₃.kernelRoot = s₁.kernelRoot := by rw [hw.only]; rfl
  have hheap : HeapOnly E.toLayout P.mem s₃.phys.mem := hw.heap
  refine .piece rfl hoff rfl fun junk => .of_ok hcommit ?_
  generalize hc : (s₃.setProc i (Proc.takeSpace prog t')).goto [.intrOff, .switchTo t',
    .freeUserTable t, .enterUser userText userStackTop p.kstackTop] = c at hb₄ ⊢
  have hb₄ := Books.perm hb₄ (.swap _ _ _)
  obtain ⟨P₅, hfree, hb₅, hspared⟩ := Books.free hb₄
  obtain ⟨hload, hleft, hfreed⟩ := hfill.replaces hs hl hs.space has (by rw [← hc]; exact hroot₃)
    (by rw [← hc]; exact hheap) rfl hb₄ hb₅ hspared
  subst hc
  refine execRest_must rfl hsie₃ hpos hfree fun junk => ?_
  refine
    { caller := ⟨Proc.takeSpace prog t' p, (hproc i).trans (if_pos rfl), rfl, rfl, rfl, rfl, rfl, rfl, rfl, rfl,
        rfl, rfl, rfl⟩
      current := hcur₃
      others := fun j hj => (hproc j).trans (if_neg hj)
      start := ⟨rfl, rfl, rfl, rfl, rfl⟩
      space := hload
      freed := hfreed
      spaces := fun r hr hne => ?_
      kernel := hleft.image }
  exact hleft.same_space hs.books (fun a ha => List.mem_cons_of_mem _ ha) ((hlive r hr).resolve_left hne)

theorem AtEcall.dispatches (h : AtEcall s i p t .exec) (hr : Reachable E reserved s) (junk : Regs) :
    exec E junk (s.trapped 8 stval) (.kerneltrap (Trap.frameOf s.hart) 8 stval) [] =
      sysExec (s.trapped 8 stval) s.pastCall (s.hart.regs .a0) (s.hart.regs .a1) := by
  have hpc : s.hart.pc < 2 ^ 38 := h.pc_lt hr
  show dispatch E (s.trapped 8 stval) (Trap.frameOf s.hart) = _
  unfold dispatch
  rw [show Heap.checked ((Trap.frameOf s.hart).sepc + 4) = .ok (s.hart.pc + 4) from
    if_pos (show s.hart.pc + 4 < 2 ^ 64 by omega), ok_bind]
  dsimp only
  rw [show call ({ Trap.frameOf s.hart with sepc := s.hart.pc + 4 } : TrapFrame).a7 = some .exec from h.asks]
  rfl

/-- `SYS_EXEC`, whatever the process has done before: it comes back with an error
when no program's name stands in the buffer, and nothing has happened; or the
program of that name is there in place of the old one, and nothing else has
changed. Only a want of memory stops it. -/
theorem exec_replaces_image (h : Reachable E reserved s) (hcall : AtEcall s i p t .exec) (stval : Nat) :
    Must (Step E) (Stops E)
      (fun e => e = .outOfHeap ∧ s.alloc (s.hart.regs .a1) 0 = .error e ∨
        e = .outOfPages ∧ ∃ prog, s.phys.freePages < 4 + 3 * Proc.npages E prog)
      (fun s' => (Returned s s' err ∧ ∀ name, name.length = s.hart.regs .a1 →
          Spells s.phys t (s.hart.regs .a0) name → User.lookup name = none) ∨
        ∃ name prog t', name.length = s.hart.regs .a1 ∧ Spells s.phys t (s.hart.regs .a0) name ∧
          User.lookup name = some prog ∧ Replaced E s s' i p t prog t')
      (s.trapped 8 stval) := by
  obtain ⟨res, lost, _, hsane⟩ := reachable_sane h
  obtain ⟨R, hperm, hserv⟩ := hsane.serving hcall.acts
  have hlive : ∀ r, LiveRoot s r → r = t ∨ r = s.kernelRoot ∨ r ∈ rootsOf E R :=
    fun r hr => live_roots hperm hcall.space hr
  have hserv₁ := hcall.trapped_serving hserv 8 stval
  refine .piece rfl rfl rfl fun junk => ?_
  rw [hcall.dispatches h]
  unfold sysExec
  refine Ends.bind (.fails fun he => ?_) fun r run _ => ?_
  · obtain ⟨h1, h2⟩ := hserv₁.withName_fails he
    exact .inl ⟨h1, Sys.alloc_fails (show (s.trapped 8 stval).phys.mem = s.phys.mem from rfl) rfl h2⟩
  obtain ⟨hwork, hfound, hnone⟩ := hserv₁.withName_works run
  have hserv₂ := ((hserv₁.withName_ends _ _ _).result run).2
  obtain ⟨o, s₂⟩ := r
  dsimp only at hwork hfound hnone hserv₂
  have hoff : s₂.hart.sie = false := by
    rw [hwork.only]
    rfl
  cases o with
  | none =>
    refine .ok (.piece rfl hoff rfl fun junk => .ok (.arrived (.inl ⟨?_, fun name hlen hspell => ?_⟩)))
    · exact hcall.returned hserv (fun r hr => live_rooted hperm hcall.space hr) hwork err
    · cases hl : User.lookup name with
      | none => rfl
      | some prog =>
        obtain ⟨hpos, hmax⟩ := User.lookup_length hl
        rw [hlen] at hpos hmax
        exact hl.symm.trans (hnone rfl hpos hmax name hlen hspell)
  | some x =>
    obtain ⟨prog, buf⟩ := x
    obtain ⟨name, hlen, hspell, hlook⟩ := hfound prog buf rfl
    have hbooks : Books E _ (s₂.goto [.loadImage prog .exec])
        (.proc p.toProcData :: ((bufBlock (s.hart.regs .a1) buf).map .block ++ R)) :=
      hserv₂.books.congr rfl rfl rfl rfl rfl
    refine .ok (hbooks.load_backward (must_backward E hoff _ _) rfl (fun hpoor => ?_) fun t' P hfill _ => ?_)
    · refine .inr ⟨rfl, prog, ?_⟩
      have hcount : s₂.phys.freePages = s.phys.freePages := hwork.count
      rw [← hcount]
      exact hpoor
    · refine (hfill.takes_over hserv hlive ?_ hoff ⟨?_, ?_⟩ ?_).seq (fun _ he => he) fun s' hs' =>
        .arrived (.inr ⟨name, prog, t', hlen, hspell, hlook, hs'⟩)
      · exact .of_heap hserv.books (by show s₂.kernelRoot = _; rw [hwork.only]; rfl) hwork.heap
      · show s₂.procs = _
        rw [hwork.only]
        rfl
      · show s₂.current = _
        rw [hwork.only]
        rfl
      · cases buf <;> rfl

/-- The first process asks for the program with no name. -/
theorem exec_replaces_image_nameless : ∃ (s s' : Sys Nat) (p : Process Nat) (t : Nat),
    Reachable smallEnv none s ∧ AtEcall s 0 p t .exec ∧
    Relation.ReflTransGen (Step smallEnv) (s.trapped 8 0) s' ∧ Returned s s' err := by
  obtain ⟨s, d, e, hu⟩ := userland Nat
  obtain ⟨t, _, ht, _⟩ := hu.roots
  have hcall := (hu.inside ht).at_ecall hu.reachable hu.first.image 14 0 0 rfl
  have hmove : Step smallEnv s (s.computed (callRegs 14 0 0) userText) :=
    (hu.inside ht).compute (fun x => by cases x <;> decide) (by decide)
  have hr := hu.reachable.step hmove
  have hmust := exec_replaces_image hr hcall 0
  obtain ⟨s', hrun, hret⟩ := hmust.reaches (by
    rintro x (⟨_, hno⟩ | ⟨_, prog, hfew⟩)
    · obtain ⟨q, s₁, hroom, _⟩ := hu.books.alloc_room hu.ample (k := 0) (n := 0) (by decide) (by decide)
        (by decide) (by decide)
      have hnone : s.alloc 0 0 = .error x :=
        Sys.alloc_fails (show (s.computed (callRegs 14 0 0) userText).phys.mem = s.phys.mem from rfl)
          rfl hno
      rw [hroom] at hnone
      cases hnone
    · have hpages := hu.ample.pages
      have hone : Proc.npages smallEnv prog = 1 := by cases prog <;> rfl
      have hfew : s.phys.freePages < 4 + 3 * Proc.npages smallEnv prog := hfew
      omega)
  refine ⟨_, s', _, t, hr, hcall, hrun, ?_⟩
  rcases hret with ⟨hret, _⟩ | ⟨name, prog, _, hlen, _, hlook, _⟩
  · exact hret
  · have hpos := (User.lookup_length hlook).1
    rw [hlen] at hpos
    exact absurd hpos (Nat.lt_irrefl 0)

end Osmium
