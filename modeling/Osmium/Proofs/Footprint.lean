import Osmium.Proofs.Fork

namespace Osmium
open Lib Vm Control Syscall

variable {T : Type} {E : Env} {pool : PagePool E.allocStart} {s s₁ s' : Sys T} {as R : List Asset}
variable {lost : List Heap.Live}

theorem SameSpace.of_phys (h : s'.phys = s.phys) (r : Nat) : SameSpace s s' r := by
  intro va _
  rw [h]
  exact ⟨rfl, fun _ _ _ _ => rfl⟩

/-- The space of a process among those left alone. -/
theorem Leaves.proc_space (h : Leaves E as s s') (hb : Books E pool s bs) (hsub : ∀ a ∈ as, a ∈ bs)
    (hin : .proc d ∈ as) (ht : d.userTable = some t) : SameSpace s s' t := by
  refine h.same_space hb hsub (.inr ?_)
  refine List.mem_map.mpr ⟨(t, some (planOf E d)), List.mem_flatMap.mpr ⟨_, hin, ?_⟩, rfl⟩
  simp [Asset.holdings, ht]

/-- Besides, nothing changes outside the heap and the pages of the allocator. -/
structure Confines (E : Env) (pool : PagePool E.allocStart) (as : List Asset) (s s' : Sys T) : Prop
    extends Leaves E as s s' where
  outside : ∀ x, Apart E.heapStart heapSize x 1 → (∀ q ∈ pool.pages, ¬(q ≤ x ∧ x < q + 4096)) →
    s'.phys.mem x = s.phys.mem x

namespace Confines

theorem same (hr : s'.kernelRoot = s.kernelRoot) (hm : s'.phys.mem = s.phys.mem) : Confines E pool as s s' :=
  ⟨.same hr hm, fun x _ _ => congrFun hm x⟩

theorem trans (h : Confines E pool as s s₁) (h' : Confines E pool as s₁ s') : Confines E pool as s s' :=
  ⟨h.toLeaves.trans h'.toLeaves, fun x hx hq => (h'.outside x hx hq).trans (h.outside x hx hq)⟩

theorem mono (h : Confines E pool as s s') (hsub : ∀ a ∈ as', a ∈ as) : Confines E pool as' s s' :=
  ⟨h.toLeaves.mono hsub, h.outside⟩

theorem of_spared (h : Spared pool s.kernelRoot (as.flatMap (Asset.holdings E)) s.phys.mem P.mem) :
    Confines E pool as s { s with phys := P } :=
  ⟨.of_spared h, fun x _ hq => h.outside x hq⟩

theorem of_heap (hb : Books E pool s as) (hr : s'.kernelRoot = s.kernelRoot)
    (h : HeapOnly E.toLayout s.phys.mem s'.phys.mem) : Confines E pool as s s' :=
  ⟨.of_heap hb hr h, fun x hx _ => h x 1 hx x (Nat.le_refl _) (Nat.lt_succ_self _)⟩

end Confines

theorem HeapWork.confines (h : HeapWork E s s') (hb : Books E pool s as) : Confines E pool as s s' :=
  .of_heap hb (by rw [h.only]) h.heap

/-! ### What the kernel does on behalf of a process -/

theorem fdAdvance_memory (run : Proc.fdAdvance s fd delta = .ok s') :
    s'.phys = s.phys ∧ s'.heap = s.heap ∧ s'.kernelRoot = s.kernelRoot := by
  unfold Proc.fdAdvance at run
  split at run
  · obtain rfl := Except.ok.inj run
    exact ⟨rfl, rfl, rfl⟩
  · split at run
    · obtain rfl := Except.ok.inj run
      exact ⟨rfl, rfl, rfl⟩
    · simp only [bind_ok, Except.ok.injEq] at run
      obtain ⟨_, _, rfl⟩ := run
      exact ⟨rfl, rfl, rfl⟩

theorem fdClose_leaves (s : Sys T) (fd : Nat) : Confines E pool as s (Proc.fdClose s fd).2 := by
  unfold Proc.fdClose
  split
  · exact .same rfl rfl
  · split
    · exact .same rfl rfl
    · exact .same rfl rfl

theorem sbrk_leaves (s : Sys T) (delta : Nat) : Confines E pool as s (Proc.sbrk s delta).2 := by
  unfold Proc.sbrk
  split
  · exact .same rfl rfl
  · dsimp only
    split
    · exact .same rfl rfl
    · split
      · exact .same rfl rfl
      · exact .same rfl rfl

namespace Serving

/-- Writes that stay inside the frames of the calling process. -/
theorem frames_leave (h : Serving E pool s i p t R) (hroot : s'.kernelRoot = s.kernelRoot)
    (hw : ∀ x, (∀ f ∈ userFrames s.phys.mem t, ¬(f ≤ x ∧ x < f + 4096)) → s'.phys.mem x = s.phys.mem x) :
    Confines E pool R s s' := by
  have hpool := h.books.owns.spaces.pool
  rw [h.holdings] at hpool
  have hpage : ∀ f ∈ userFrames s.phys.mem t, f ∈ pool.pages := fun f hf =>
    hpool.mem ((claimed_cons _ _ _ _).mem_iff.mpr (List.mem_append_left _ (userFrames_owned hf)))
  refine ⟨⟨hroot, fun q hq x hlo hhi => hw x fun f hf hin => ?_, fun x hx => hw x fun f hf hin => ?_⟩,
    fun x _ hx => hw x fun f hf => hx f (hpage f hf)⟩
  · have hq' : q ∈ pool.pages := hpool.mem ((claimed_cons _ _ _ _).mem_iff.mpr (List.mem_append_right _ hq))
    have h1 := pool.page f (hpage f hf)
    have h2 := pool.page q hq'
    obtain rfl : f = q := by omega
    have hnodup := ((claimed_cons _ _ _ _).nodup_iff.mp hpool.nodup)
    exact (List.nodup_append.mp hnodup).2.2 f (userFrames_owned hf) f hq rfl
  · have habove := pool.above f (hpage f hf)
    have heap := E.allocStart_eq
    unfold Layout.allocStart at habove
    omega

theorem copyToUser_leaves (h : Serving E pool s i p t R) (run : copyToUser s ptr src = .ok r) :
    Confines E pool R s r.sys := by
  rcases copyToUser_spec h.caller ptr src with ⟨_, hr⟩ | ⟨hready, m', hr, _, _, _, hout⟩
  · obtain rfl := Except.ok.inj (hr.symm.trans run)
    exact .same rfl rfl
  · obtain rfl := Except.ok.inj (hr.symm.trans run)
    have huse := h.caller.ready (by simp) (by simp) hready
    refine h.frames_leave rfl fun x hx => hout x fun k hk he => ?_
    obtain ⟨hf, hle⟩ := (huse k hk).frame
    have hlt : (ptr + k) % 4096 < 4096 := Nat.mod_lt _ (by decide)
    refine hx _ hf ?_
    omega

theorem copyOut_leaves (h : Serving E pool s i p t R) (run : copyOut s ptr src = .ok (n, s')) :
    Confines E pool R s s' := by
  simp only [copyOut, bind_ok, Except.ok.injEq, Prod.mk.injEq] at run
  obtain ⟨r, hr, _, rfl⟩ := run
  exact h.copyToUser_leaves hr

theorem sysWrite_works (h : Serving E pool s i p t R) (run : sysWrite s ptr len = .ok (n, s')) :
    HeapWork E s s' := by
  unfold sysWrite at run
  split at run
  · obtain ⟨_, rfl⟩ := Prod.mk.inj (Except.ok.inj run)
    exact .refl s
  · simp only [bind_ok] at run
    obtain ⟨c, hc, run⟩ := run
    obtain ⟨hwork, _⟩ := h.copyFromUser_works hc
    have hserv := ((h.copyFromUser_ends ptr len).result hc).2
    cases hres : c.result with
    | none =>
      rw [hres] at run
      obtain ⟨_, rfl⟩ := Prod.mk.inj (Except.ok.inj run)
      exact hwork
    | some buf =>
      rw [hres] at run hserv
      simp only [bind_ok, Except.ok.injEq, Prod.mk.injEq] at run
      obtain ⟨s₂, hd, _, rfl⟩ := run
      exact hwork.trans (hserv.dropBuf_works hd)

/-- An open file is an entry of the caller's, and a name that came and went. -/
theorem sysOpen_leaves (h : Serving E pool s i p t R) (run : sysOpen E s ptr len = .ok (n, s')) :
    Confines E pool R s s' := by
  simp only [sysOpen, bind_ok] at run
  obtain ⟨r, hr, run⟩ := run
  obtain ⟨hwork, _⟩ := h.withName_works hr
  have hserv := ((h.withName_ends ptr len (Fs.lookup E)).result hr).2
  have hfirst : Confines E pool R s r.2 := (hwork.confines h.books).mono fun a ha => List.mem_cons_of_mem _ ha
  obtain ⟨o, s₁⟩ := r
  cases o with
  | none =>
    obtain ⟨_, rfl⟩ := Prod.mk.inj (Except.ok.inj run)
    exact hfirst
  | some x =>
    obtain ⟨idx, buf⟩ := x
    simp only [bind_ok, Except.ok.injEq, Prod.mk.injEq] at run
    obtain ⟨s₂, hd, _, rfl⟩ := run
    obtain ⟨p', hp', _⟩ := hserv.fdInstall_served idx
    have hsame : Confines E pool R s₁ (Proc.fdInstall s₁ idx).2 := by
      refine .same ?_ ?_ <;>
      · unfold Proc.fdInstall
        split
        · rfl
        · split <;> rfl
    have hlast := (hp'.dropBuf_works hd).confines hp'.books
    refine hfirst.trans (hsame.trans (hlast.mono fun a ha => ?_))
    exact List.mem_cons_of_mem _ (List.mem_append_right _ ha)

theorem sysFread_leaves (h : Serving E pool s i p t R) (run : sysFread E s fd ptr len = .ok (n, s')) :
    Confines E pool R s s' := by
  have tail : ∀ {a : Heap.Live} {c : Asset}, c ∈ R → c ∈ Asset.proc p.toProcData :: .block a :: R :=
    fun hc => List.mem_cons_of_mem _ (List.mem_cons_of_mem _ hc)
  unfold sysFread at run
  cases hl : Proc.fdLookup s fd with
  | none =>
    rw [hl] at run
    obtain ⟨_, rfl⟩ := Prod.mk.inj (Except.ok.inj run)
    exact .same rfl rfl
  | some x =>
    rw [hl] at run
    dsimp only at run
    split at run
    · obtain ⟨_, rfl⟩ := Prod.mk.inj (Except.ok.inj run)
      exact .same rfl rfl
    · simp only [bind_ok] at run
      obtain ⟨⟨buf, s₁⟩, ha, c, hc, run⟩ := run
      have hcap : min len writeMax + 2 ^ 0 ≤ 2 ^ 63 := by
        unfold writeMax
        omega
      obtain ⟨hm, hs₁⟩ := (h.alloc_ends hcap).result ha
      obtain ⟨hm', hs₂, hn⟩ := (hs₁.copyToUser_ends ptr _).result hc
      have hwork : HeapWork E s s₁ := .alloc h.books.owns ha
      have h₁ : Confines E pool R s s₁ := (hwork.confines h.books).mono fun a ha => List.mem_cons_of_mem _ ha
      have h₂ : Confines E pool R s₁ c.sys :=
        (hs₁.copyToUser_leaves hc).mono fun a ha => List.mem_cons_of_mem _ ha
      refine h₁.trans (h₂.trans ?_)
      cases hres : c.result with
      | none =>
        rw [hres] at run
        simp only [bind_ok, Except.ok.injEq, Prod.mk.injEq] at run
        obtain ⟨s₃, hd, _, rfl⟩ := run
        have hfree : HeapWork E c.sys s₃ :=
          .dealloc (a := ⟨buf, _⟩) (hs₂.books.perm (.swap _ _ _)).owns hd
        exact (hfree.confines hs₂.books).mono fun a ha => tail ha
      | some written =>
        rw [hres] at run
        simp only [bind_ok, Except.ok.injEq, Prod.mk.injEq] at run
        obtain ⟨s₃, hadv, s₄, hd, _, rfl⟩ := run
        obtain ⟨hphys, hheap, hroot⟩ := fdAdvance_memory hadv
        have ho := (hs₂.books.perm (.swap _ _ _)).owns
        unfold Owns at ho
        rw [← hphys, ← hheap, ← hroot] at ho
        have hfree : HeapWork E s₃ s₄ := .dealloc (a := ⟨buf, _⟩) ho hd
        have hlast : Confines E pool _ c.sys s₄ :=
          .of_heap hs₂.books (by rw [hfree.only]; exact hroot) (hphys ▸ hfree.heap)
        exact hlast.mono fun a ha => tail ha

theorem sysRead_leaves (h : Serving E pool s i p t R) (run : sysRead s f ptr len = .ok s') :
    Confines E pool R s s' := by
  unfold sysRead at run
  split at run
  · obtain rfl := Except.ok.inj run
    exact .same rfl rfl
  · simp only [bind_ok, Except.ok.injEq] at run
    obtain ⟨⟨buf, s₁⟩, ha, rfl⟩ := run
    have hwork : HeapWork E s s₁ := .alloc h.books.owns ha
    have hl : Confines E pool R s s₁ := (hwork.confines h.books).mono fun a ha => List.mem_cons_of_mem _ ha
    exact hl.trans (.same rfl rfl)

theorem sysExec_leaves (h : Serving E pool s i p t R) (run : sysExec s f ptr len = .ok s') :
    Confines E pool R s s' := by
  simp only [sysExec, bind_ok] at run
  obtain ⟨r, hr, run⟩ := run
  obtain ⟨hwork, _⟩ := h.withName_works hr
  have hl : Confines E pool R s r.2 := (hwork.confines h.books).mono fun a ha => List.mem_cons_of_mem _ ha
  obtain ⟨o, s₁⟩ := r
  cases o with
  | none =>
    obtain rfl := Except.ok.inj run
    exact hl.trans (.same rfl rfl)
  | some x =>
    obtain rfl := Except.ok.inj run
    exact hl.trans (.same rfl rfl)

/-- A system call reaches no other space. -/
theorem dispatch_leaves (h : Serving E pool s i p t R) (run : dispatch E s f = .ok s') : Confines E pool R s s' := by
  simp only [dispatch, bind_ok] at run
  obtain ⟨sepc, _, run⟩ := run
  have hret : ∀ {x : Except Panic (Nat × Sys T)} {g : TrapFrame},
      (∀ n s₁, x = .ok (n, s₁) → Confines E pool R s s₁) →
      ((fun (r : Nat × Sys T) => r.2.goto [.sysRet g r.1]) <$> x) = .ok s' → Confines E pool R s s' := by
    intro x g hx hr
    cases x with
    | error e => cases hr
    | ok r =>
      obtain rfl := Except.ok.inj hr
      exact (hx r.1 r.2 rfl).trans (.same rfl rfl)
  split at run
  · exact hret (fun n s₁ hr => ((h.sysWrite_works hr).confines h.books).mono
      fun a ha => List.mem_cons_of_mem _ ha) run
  · obtain rfl := Except.ok.inj run
    exact .same rfl rfl
  · obtain rfl := Except.ok.inj run
    exact .same rfl rfl
  · obtain rfl := Except.ok.inj run
    exact .same rfl rfl
  · exact h.sysRead_leaves run
  · exact hret (fun n s₁ hr => h.copyOut_leaves hr) run
  · exact hret (fun n s₁ hr => h.sysOpen_leaves hr) run
  · exact hret (fun n s₁ hr => h.sysFread_leaves hr) run
  · obtain rfl := Except.ok.inj run
    exact (sbrk_leaves s _).trans (.same rfl rfl)
  · obtain rfl := Except.ok.inj run
    exact .same rfl rfl
  · obtain rfl := Except.ok.inj run
    exact .same rfl rfl
  · exact h.sysExec_leaves run
  · obtain rfl := Except.ok.inj run
    exact (fdClose_leaves s _).trans (.same rfl rfl)
  · obtain rfl := Except.ok.inj run
    exact .same rfl rfl
  · obtain rfl := Except.ok.inj run
    exact .same rfl rfl

theorem kerneltrap_leaves (h : Serving E pool s i p t R)
    (run : Trap.kerneltrap E s f code stval = .ok s') : Confines E pool R s s' := by
  unfold Trap.kerneltrap at run
  split at run
  · simp only [bind_ok, Except.ok.injEq] at run
    obtain ⟨_, _, _, _, rfl⟩ := run
    exact .same rfl rfl
  · split at run
    · exact h.dispatch_leaves run
    · split at run
      · have hfault := h.servicePageFault_spec stval
        generalize Proc.servicePageFault s stval = r at hfault run
        cases hfault with
        | refused =>
          obtain rfl := Except.ok.inj run
          exact .same rfl rfl
        | stuck => cases run
        | mapped _ _ P _ hung =>
          obtain rfl := Except.ok.inj run
          have hl : Confines E pool R s { s with phys := P } := .of_spared hung.spared
          exact hl.trans (.same rfl rfl)
      · obtain rfl := Except.ok.inj run
        exact .same rfl rfl

theorem readRest_leaves (h : Serving E pool s i p t (.block ⟨buf, cap⟩ :: R))
    (run : readRest s f ptr cap buf byte = .ok s') : Confines E pool R s s' := by
  have hdrain : drain s (cap - 1) =
      ((drain s (cap - 1)).1, { s with input := (drain s (cap - 1)).2.input }) :=
    Prod.ext rfl (drain_eq s (cap - 1))
  unfold readRest at run
  rw [hdrain] at run
  generalize (drain s (cap - 1)).1 = bytes at run
  generalize (drain s (cap - 1)).2.input = input at run
  have hs : Serving E pool { s with input := input } i p t (.block ⟨buf, cap⟩ :: R) :=
    ⟨h.current, h.space, h.satp, h.books.congr rfl rfl rfl rfl rfl⟩
  simp only [bind_ok, Except.ok.injEq] at run
  obtain ⟨⟨n, s₁⟩, hc, s₂, hd, rfl⟩ := run
  have hs₁ := ((hs.copyOut_ends ptr _).result hc).2
  have h₁ : Confines E pool R s s₁ := by
    have hl := (hs.copyOut_leaves hc).mono fun a ha => List.mem_cons_of_mem (.block ⟨buf, cap⟩) ha
    exact ⟨⟨hl.root, hl.held, hl.image⟩, hl.outside⟩
  have hfree : HeapWork E s₁ s₂ := .dealloc (a := ⟨buf, cap⟩) (hs₁.books.perm (.swap _ _ _)).owns hd
  have h₂ : Confines E pool R s₁ s₂ := (hfree.confines hs₁.books).mono
    fun a ha => List.mem_cons_of_mem _ (List.mem_cons_of_mem _ ha)
  exact h₁.trans (h₂.trans (.same rfl rfl))

end Serving

/-! ### What the kernel does for itself -/

namespace Books

theorem spawnWith_leaves {entry : Entry} {cfg : ProcData → ProcData} (h : Books E pool s as)
    (run : Proc.spawnWith E s entry cfg = .ok (d, s')) : Confines E pool as s s' := by
  simp only [Proc.spawnWith, bind_ok, Except.ok.injEq, Prod.mk.injEq] at run
  obtain ⟨⟨kstack, s₁⟩, ha, ⟨box, s₂⟩, ha', _, rfl⟩ := run
  have hb := h.alloc ha
  have h₁ : Confines E pool as s s₁ := (HeapWork.alloc h.owns ha).confines h
  have h₂ := (HeapWork.alloc hb.number.owns ha').confines hb.number
  refine h₁.trans ?_
  have hl : Confines E pool as _ s₂ := h₂.mono fun a ha => List.mem_cons_of_mem _ ha
  exact ⟨⟨hl.root, hl.held, hl.image⟩, hl.outside⟩

theorem box_leaves (h : Books E pool s as) (run : Proc.box s size k = .ok s') : Confines E pool as s s' := by
  unfold Proc.box at run
  split at run
  · obtain rfl := Except.ok.inj run
    exact .same rfl rfl
  · simp only [bind_ok, Except.ok.injEq] at run
    obtain ⟨⟨p, s₁⟩, ha, rfl⟩ := run
    exact ((HeapWork.alloc h.owns ha).confines h).trans (.same rfl rfl)

theorem unbox_leaves (h : Books E pool s as) (run : Proc.unbox s n = .ok s') : Confines E pool as s s' := by
  unfold Proc.unbox at run
  split at run
  · obtain rfl := Except.ok.inj run
    exact .same rfl rfl
  next a ha =>
    simp only [bind_ok, Except.ok.injEq] at run
    obtain ⟨s₁, hd, rfl⟩ := run
    have hwork : HeapWork E s s₁ := .dealloc (h.boxed ha) hd
    exact (hwork.confines h).trans (.same rfl rfl)

theorem publish_leaves (h : Books E pool s as) (hr : Roomy s) (run : Proc.publish s d = .ok s') :
    Confines E pool as s s' := by
  obtain ⟨_, hwork, _⟩ := (h.publish_works hr d).result run
  exact .of_heap h (by rw [hwork.only]) hwork.heap

theorem fork_leaves (h : Books E pool s as) (hc : s.currentProc = some (i, p))
    (hd : .proc p.toProcData ∈ as) (ht : p.userTable = some t) (run : Proc.fork E s f = .ok s') :
    Confines E pool as s s' := by
  obtain ⟨d, t', P, s₁, hb, rfl⟩ := (h.fork_works hc hd ht).result run
  have hclone : Confines E pool as s { s with phys := P } := .of_spared (.of_pool hb.cloned.pool hb.cloned.writes)
  have hheap : Confines E pool (.table t' (some (planOf E p.toProcData)) :: as) { s with phys := P } s₁ :=
    .of_heap hb.space (by rw [hb.work.only]) hb.work.heap
  exact hclone.trans ((hheap.mono fun a ha => List.mem_cons_of_mem _ ha).trans (.same rfl rfl))

theorem loadImage_leaves (h : Books E pool s as) (run : Proc.loadImage E s prog fin k = .ok s') :
    Confines E pool as s s' := by
  unfold Proc.loadImage at run
  split at run
  · cases run
  · simp only [bind_ok, Except.ok.injEq] at run
    obtain ⟨⟨t, P⟩, hmake, rfl⟩ := run
    have hl : Confines E pool as s { s with phys := P } := .of_spared (h.owns.spaces.make_ends.result hmake).2.1
    exact hl.trans (.same rfl rfl)

theorem loadText_leaves (h : Books E pool s (carried E (.loadText prog t n fin : Instr T) ++ as))
    (run : Proc.loadText E s prog t n fin k = .ok s') : Confines E pool as s s' := by
  unfold Proc.loadText at run
  split at run
  next hn =>
    simp only [bind_ok, Except.ok.injEq] at run
    obtain ⟨P, hload, rfl⟩ := run
    have hle : min n (Proc.npages E prog) = n := Nat.min_eq_left (Nat.le_of_lt hn)
    simp only [carried, hle] at h
    have hl : Confines E pool as s { s with phys := P } := .of_spared ((Books.load_page h hn).result hload).2.spared
    exact hl.trans (.same rfl rfl)
  · obtain rfl := Except.ok.inj run
    exact .same rfl rfl

theorem loadStack_leaves (h : Books E pool s (carried E (.loadStack prog t fin : Instr T) ++ as))
    (run : Proc.loadStack s prog t fin k = .ok s') : Confines E pool as s s' := by
  simp only [Proc.loadStack, bind_ok, Except.ok.injEq] at run
  obtain ⟨⟨stack, P₁⟩, ha, P, hmap, rfl⟩ := run
  have hung := ((Books.load_stack h).result (bind_ok.mpr ⟨(stack, P₁), ha, hmap⟩)).2
  have hl : Confines E pool as s { s with phys := P } := .of_spared hung.spared
  exact hl.trans (.same rfl rfl)

theorem freeTable_leaves (h : Books E pool s (.table t o :: as)) (run : Proc.freeTable E s t = .ok s') :
    Confines E pool as s s' := by
  obtain ⟨P, hr, _, hspared⟩ := h.free
  obtain rfl := Except.ok.inj (hr.symm.trans run)
  exact .of_spared hspared

/-- A dead process takes nothing with it but its own. -/
theorem reap_leaves (h : Books E pool s (.proc p.toProcData :: as)) (hp : s.proc i = some p)
    (run : Proc.reap E s i = .ok s') : Confines E pool as s s' := by
  unfold Proc.reap at run
  rw [hp] at run
  dsimp only at run
  split at run
  swap
  · obtain rfl := Except.ok.inj run
    exact .same rfl rfl
  simp only [bind_ok, Except.ok.injEq, Proc.dropProcess] at run
  obtain ⟨s₁, hfree, s₄, ⟨s₂, hframe, s₃, hstack, hbox⟩, rfl⟩ := run
  have hb := h.dissolve
  have hb₁ := hb.freeSpace_ends.result hfree
  obtain ⟨_, hb₂⟩ := hb₁.dropFrame_ends.result hframe
  obtain ⟨_, hb₃⟩ := (dealloc_ends (a := ⟨p.kstack, kstackSize⟩) hb₂).result hstack
  have h₁ : Confines E pool as s s₁ := by
    cases ht : p.userTable with
    | none =>
      rw [ht] at hfree
      obtain rfl := Except.ok.inj hfree
      exact .same rfl rfl
    | some t =>
      rw [ht] at hfree hb
      refine (Books.freeTable_leaves hb hfree).mono fun a ha => ?_
      exact List.mem_append_right _ (List.mem_append_right _ (List.mem_append_right _ ha))
  have h₂ : Confines E pool as s₁ s₂ := by
    cases hf : p.forkFrame with
    | none =>
      rw [hf] at hframe
      obtain rfl := Except.ok.inj hframe
      exact .same rfl rfl
    | some f =>
      rw [hf] at hframe hb₁
      have hwork : HeapWork E s₁ s₂ := .dealloc (a := ⟨f.1, Proc.frameSize⟩) hb₁.owns hframe
      refine (hwork.confines hb₁).mono fun a ha => ?_
      exact List.mem_append_right _ (List.mem_append_right _ ha)
  have h₃ : Confines E pool as s₂ s₃ := by
    have hwork : HeapWork E s₂ s₃ := .dealloc (a := ⟨p.kstack, kstackSize⟩) hb₂.owns hstack
    exact (hwork.confines hb₂).mono fun a ha => List.mem_append_right _ ha
  have h₄ : Confines E pool as s₃ s₄ := by
    have hwork : HeapWork E s₃ s₄ := .dealloc (a := ⟨p.box, E.processSize⟩) hb₃.owns hbox
    exact (hwork.confines hb₃).mono fun a ha => List.mem_cons_of_mem _ ha
  exact h₁.trans (h₂.trans (h₃.trans (h₄.trans (.same rfl rfl))))

end Books

/-! ### One piece of code -/

/-- The slot of the process whose memory a piece works on. -/
def Instr.works (s : Sys T) : Instr T → Option Nat
  | .umode | .kerneltrap .. | .gotChar (.user ..) _ | .execCommit .. => s.current
  | .reap n => some n
  | _ => none

/-- Assets that are neither in the hands of the piece `i` nor those of the process
it works on. -/
def Beside (E : Env) (lost : List Heap.Live) (s : Sys T) (i : Instr T) (as : List Asset) : Prop :=
  ∃ rest, (lost.map Asset.block ++ stock E s).Perm (carried E i ++ (as ++ rest)) ∧
    ∀ c q, i.works s = some c → s.proc c = some q → ∃ rest', rest.Perm (.proc q.toProcData :: rest')

/-- Some processes, in front of everything else. -/
theorem stock_piece (E : Env) (lost : List Heap.Live) (hcode : s.hart.code = i :: k)
    (hslots : (slots s).Perm (as ++ R)) :
    ∃ rest, (lost.map Asset.block ++ stock E s).Perm (carried E i ++ (as ++ (R ++ rest))) := by
  obtain ⟨rest, h1, _⟩ := (sameCtx_goto s s.hart.code).gather (carried E)
  rw [hcode, List.flatMap_cons] at h1
  rw [← Multiset.coe_eq_coe, ← Multiset.coe_add] at hslots
  refine ⟨k.flatMap (carried E) ++ (lost.map Asset.block ++ rest), ?_⟩
  unfold stock
  rw [h1, ← Multiset.coe_eq_coe]
  simp only [← Multiset.coe_add, hslots]
  abel

namespace Beside

theorem nil (hcode : s.hart.code = i :: k) : Beside E lost s i [] := by
  obtain ⟨rest, hperm⟩ := stock_piece E lost hcode (show (slots s).Perm ([] ++ slots s) from .refl _)
  refine ⟨slots s ++ rest, hperm, fun c q _ hq => ?_⟩
  obtain ⟨L, hslots, _⟩ := slots_change hq hq (fun _ _ => rfl)
  exact ⟨L ++ rest, hslots.append_right rest⟩

/-- A process on which the piece does not work. -/
theorem proc (hcode : s.hart.code = i :: k) (hp : s.proc j = some p) (hne : i.works s ≠ some j) :
    Beside E lost s i [.proc p.toProcData] := by
  obtain ⟨L, hslots, _⟩ := slots_change hp hp (fun _ _ => rfl)
  obtain ⟨rest, hperm⟩ := stock_piece E lost hcode
    (show (slots s).Perm ([.proc p.toProcData] ++ L) from hslots)
  refine ⟨L ++ rest, hperm, fun c q hc hq => ?_⟩
  have hcj : c ≠ j := by
    rintro rfl
    exact hne hc
  obtain ⟨L', hprocs⟩ := procs_pair hp hq hcj
  have hpair : (slots s).Perm (.proc p.toProcData :: .proc q.toProcData ::
      (L'.map Process.toProcData).map Asset.proc) := (hprocs.map Process.toProcData).map Asset.proc
  have hrest := (List.perm_cons _).mp (hslots.symm.trans hpair)
  exact ⟨_, hrest.append_right rest⟩

theorem books (h : Beside E lost s i as) (hs : Sane E pool lost s) :
    ∃ rest, Books E pool s (carried E i ++ (as ++ rest)) := by
  obtain ⟨rest, hperm, _⟩ := h
  exact ⟨rest, Books.perm hs.ledger hperm⟩

theorem serving (h : Beside E lost s i as) (hs : Sane E pool lost s) (hworks : i.works s = s.current)
    (hcaller : ∃ c q u, s.currentProc = some (c, q) ∧ q.userTable = some u ∧ s.hart.satp = q.pageTable) :
    ∃ c q u rest, Serving E pool s c q u (carried E i ++ (as ++ rest)) := by
  obtain ⟨c, q, u, hc, hut, hsat⟩ := hcaller
  obtain ⟨hcur, hq⟩ := Sys.currentProc_eq hc
  obtain ⟨rest, hperm, hown⟩ := h
  obtain ⟨rest', hrest⟩ := hown c q (hworks.trans hcur) hq
  refine ⟨c, q, u, rest', .of_books (Books.perm hs.ledger (hperm.trans ?_)) hc hut hsat⟩
  have hfront := (hrest.append_left as).trans List.perm_middle
  exact (hfront.append_left (carried E i)).trans List.perm_middle

end Beside

namespace Sane

theorem reap_leaves (h : Sane E pool lost s) (hb : Beside E lost s (.reap n) as)
    (run : Proc.reapLoop E s n = .ok s') : Confines E pool as s s' := by
  unfold Proc.reapLoop at run
  split at run
  · simp only [bind_ok, Except.ok.injEq] at run
    obtain ⟨s₁, hr, rfl⟩ := run
    cases hq : s.proc n with
    | none =>
      unfold Proc.reap at hr
      rw [hq] at hr
      obtain rfl := Except.ok.inj hr
      exact .same rfl rfl
    | some q =>
      obtain ⟨rest, hperm, hown⟩ := hb
      obtain ⟨rest', hrest⟩ := hown n q rfl hq
      have hbooks : Books E pool s (.proc q.toProcData :: (as ++ rest')) := by
        refine Books.perm h.ledger (hperm.trans ?_)
        exact (hrest.append_left as).trans List.perm_middle
      have hl := (Books.reap_leaves hbooks hq hr).mono fun a ha => List.mem_append_left rest' ha
      exact hl.trans (.same rfl rfl)
  · obtain rfl := Except.ok.inj run
    exact .same rfl rfl

end Sane

/-- Whatever a piece of kernel code does, it leaves alone what is beside it. -/
theorem exec_leaves (h : Sane E pool lost s) (hcode : s.hart.code = i :: k)
    (run : exec E junk s i k = .ok s') (hbeside : Beside E lost s i as) : Confines E pool as s s' := by
  obtain ⟨S, lvl, top, hh⟩ := h.control
  by_cases hκ : i.kind = .space
  swap
  · have hemits := exec_emits hh hcode run
    exact .same hemits.root (by rw [(hemits.memory hκ).phys])
  obtain ⟨rest, hb⟩ := hbeside.books h
  have front : ∀ bs, Confines E pool (bs ++ (as ++ rest)) s s' → Confines E pool as s s' := fun bs hl =>
    hl.mono fun a ha => List.mem_append_right _ (List.mem_append_left _ ha)
  cases i with
  | getcharLoop r =>
    obtain rfl := Except.ok.inj run
    exact .same rfl rfl
  | getcharCheck r =>
    obtain rfl := Except.ok.inj run
    rcases Console.getcharCheck_eq s r k with ⟨_, he⟩ | ⟨_, he⟩
    · rw [he]
      exact .same rfl rfl
    · rw [he]
      exact .same rfl rfl
  | gotChar r byte =>
    cases r with
    | kernel => cases hκ
    | user f ptr cap buf =>
      obtain ⟨rfl, rfl, rfl⟩ := hh.leads hcode
      obtain ⟨c, q, u, rest', hs⟩ := hbeside.serving h rfl (hh.caller h.manned hcode rfl)
      exact (hs.readRest_leaves run).mono fun a ha => List.mem_append_left rest' ha
  | kerneltrap f code stval =>
    obtain ⟨rfl, rfl, rfl⟩ := hh.leads hcode
    obtain ⟨c, q, u, rest', hs⟩ := hbeside.serving h rfl (hh.caller h.manned hcode rfl)
    exact (hs.kerneltrap_leaves run).mono fun a ha => List.mem_append_left rest' ha
  | box size a =>
    simp only [exec, bind_ok, Except.ok.injEq] at run
    obtain ⟨s₁, hr, rfl⟩ := run
    exact front [] ((Books.box_leaves hb hr).trans (.same rfl rfl))
  | unbox n =>
    simp only [exec, bind_ok, Except.ok.injEq] at run
    obtain ⟨s₁, hr, rfl⟩ := run
    exact front [] ((Books.unbox_leaves hb hr).trans (.same rfl rfl))
  | reap n => exact h.reap_leaves hbeside run
  | loadImage prog fin => exact front [] (Books.loadImage_leaves hb run)
  | loadText prog t n fin => exact front [] (Books.loadText_leaves hb run)
  | loadStack prog t fin => exact front [] (Books.loadStack_leaves hb run)
  | spawn =>
    simp only [exec, Proc.spawn, bind_ok, Except.ok.injEq] at run
    obtain ⟨⟨d, s₁⟩, hr, rfl⟩ := run
    exact front [] ((Books.spawnWith_leaves hb hr).trans (.same rfl rfl))
  | spawnUser prog t =>
    simp only [exec, Proc.spawnUser, bind_ok, Except.ok.injEq] at run
    obtain ⟨⟨d, s₁⟩, hr, rfl⟩ := run
    exact front _ ((Books.spawnWith_leaves hb hr).trans (.same rfl rfl))
  | execCommit prog t =>
    obtain ⟨rfl, rfl, rfl⟩ := hh.leads hcode
    obtain ⟨c, q, u, rest', hs⟩ := hbeside.serving h rfl (hh.caller h.manned hcode rfl)
    obtain ⟨s₁, hw, hrun, _⟩ := (hs.books.perm List.perm_middle.symm).execCommit_works hs.current
    obtain rfl := Except.ok.inj (hrun.symm.trans run)
    have hl := (hw.confines hs.books).mono (fun a ha => List.mem_cons_of_mem _ (List.mem_append_right _
      (List.mem_append_left rest' ha)))
    exact hl.trans (.same rfl rfl)
  | fork f =>
    obtain ⟨rfl, rfl, rfl⟩ := hh.leads hcode
    obtain ⟨c, q, u, hcur, hut, _⟩ := hh.caller h.manned hcode rfl
    have hq : .proc q.toProcData ∈ lost.map Asset.block ++ stock E s :=
      List.mem_append_right _ (Sane.in_stock (Sys.currentProc_eq hcur).2)
    obtain ⟨_, hperm, _⟩ := hbeside
    refine (Books.fork_leaves h.ledger hcur hq hut run).mono fun a ha => hperm.mem_iff.mpr ?_
    exact List.mem_append_right _ (List.mem_append_left _ ha)
  | publish d =>
    simp only [exec, bind_ok, Except.ok.injEq] at run
    obtain ⟨s₁, hr, rfl⟩ := run
    exact front _ ((Books.publish_leaves hb h.room hr).trans (.same rfl rfl))
  | freeUserTable t =>
    simp only [exec, bind_ok, Except.ok.injEq] at run
    obtain ⟨s₁, hr, rfl⟩ := run
    exact front [] ((Books.freeTable_leaves hb hr).trans (.same rfl rfl))
  | _ => cases hκ

theorem step_leaves (h : Sane E pool lost s) (move : Step E s s')
    (hbeside : ∀ i k, s.hart.code = i :: k → Beside E lost s i as) : Confines E pool as s s' := by
  cases move with
  | exec junk code run => exact exec_leaves h code run (hbeside _ _ code)
  | userStore va pa b code mapped =>
    obtain ⟨S, lvl, top, hh⟩ := h.control
    obtain ⟨rfl, _, _⟩ := hh.leads code
    obtain ⟨c, q, u, rest, hs⟩ := (hbeside _ _ code).serving h rfl (hh.user h.manned code)
    rw [hs.satp] at mapped
    have hspaces := hs.books.owns.spaces
    rw [hs.holdings] at hspaces
    obtain ⟨e, _, _, _, _, hf, rfl⟩ := hspaces.user_access List.mem_cons_self mapped
    have hl : Confines E pool (as ++ rest) s
        { s with phys := { s.phys with mem := poke s.phys.mem (pteToPa e + va % 4096) b } } := by
      refine hs.frames_leave rfl fun x hout => ?_
      have hne : x ≠ pteToPa e + va % 4096 := by
        rintro rfl
        exact hout _ hf ⟨Nat.le_add_right _ _, by omega⟩
      exact if_neg hne
    exact hl.mono fun a ha => List.mem_append_left _ ha
  | _ => exact .same rfl rfl

end Osmium
