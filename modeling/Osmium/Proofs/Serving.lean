import Osmium.Proofs.Grow

namespace Osmium
open Lib Vm Syscall

variable {T : Type} {E : Env} {pool : PagePool E.allocStart} {s s' : Sys T}

theorem Fs.size_lt (E : Env) (idx : Nat) : Fs.size E idx < 2 ^ 64 := by
  have hall := E.files_fit
  unfold Fs.size
  cases hf : E.files[idx]? with
  | none => decide
  | some f => exact Nat.lt_of_lt_of_le (hall f (List.mem_of_getElem? hf)) (by decide)

theorem OnlyMem.proc (h : OnlyMem s s') (j : Nat) : s'.proc j = s.proc j := by
  rw [h]
  rfl

theorem OnlyMem.currentProc (h : OnlyMem s s') : s'.currentProc = s.currentProc := by
  rw [h]
  rfl

/-- Work on the kernel's heap, and nothing else. -/
structure HeapWork (E : Env) (s s' : Sys T) : Prop where
  only : OnlyMem s s'
  head : s'.phys.head = s.phys.head
  count : s'.phys.freePages = s.phys.freePages
  heap : HeapOnly E.toLayout s.phys.mem s'.phys.mem

namespace HeapWork

variable {s₁ : Sys T} {hs : List Holding} {live : List Heap.Live}

theorem refl (s : Sys T) : HeapWork E s s := ⟨.refl s, rfl, rfl, fun _ _ _ => .refl _ _ _⟩

theorem trans (h : HeapWork E s s₁) (h' : HeapWork E s₁ s') : HeapWork E s s' where
  only := h.only.trans h'.only
  head := h'.head.trans h.head
  count := h'.count.trans h.count
  heap c k hap := (h.heap c k hap).trans (h'.heap c k hap)

theorem alloc (ho : Owns pool s hs live) (run : s.alloc size k = .ok (p, s')) : HeapWork E s s' := by
  obtain ⟨_, hheap, _⟩ := ho.alloc run
  obtain ⟨_, _, _, _, _, _, rfl⟩ := Sys.alloc_eq run
  exact ⟨rfl, rfl, rfl, hheap⟩

theorem dealloc (ho : Owns pool s hs (a :: live)) (run : s.dealloc a.ptr = .ok s') :
    HeapWork E s s' := by
  obtain ⟨_, hheap⟩ := ho.dealloc (a := a) run
  refine ⟨.dealloc run, ?_, ?_, hheap⟩ <;>
  · simp only [Sys.dealloc, bind_ok, Except.ok.injEq] at run
    obtain ⟨_, _, rfl⟩ := run
    rfl

theorem leaves {as : List Asset} (h : HeapWork E s s') (hb : Books E pool s as) : Leaves E as s s' :=
  .of_heap hb (by rw [h.only]) h.heap

end HeapWork

namespace Books

/-- An allocation that is not too large fails only for want of room. -/
theorem alloc_room_ends (h : Books E pool s as) (hsize : size + 2 ^ k ≤ 2 ^ 63) :
    Ends (· = .outOfHeap) (s.alloc size k)
      (fun r => OnlyMem s r.2 ∧ Books E pool r.2 (.block ⟨r.1, size⟩ :: as)) := by
  have hpos : 0 < 2 ^ k := Nat.pow_pos (by decide)
  have hreq : ∃ r, Heap.request size k = .ok r := ⟨_, dif_pos (by omega)⟩
  obtain ⟨r, hr⟩ := hreq
  obtain ⟨o, m', h', ho⟩ := h.owns.heap.alloc_total r
  have hrun : s.alloc size k = o.elim (.error .outOfHeap)
      (fun p => .ok (p, { s with phys := { s.phys with mem := m' }, heap := h' })) := by
    unfold Sys.alloc
    rw [hr, ok_bind, ho, ok_bind]
    cases o <;> rfl
  cases o with
  | none =>
    rw [hrun]
    exact .error rfl
  | some p => exact .of_ok hrun ⟨.alloc hrun, h.alloc hrun⟩

theorem dealloc_ends (h : Books E pool s (.block a :: as)) :
    Ends Never (s.dealloc a.ptr) (fun s' => OnlyMem s s' ∧ Books E pool s' as) := by
  obtain ⟨s', hr⟩ := h.dealloc_total
  exact .of_ok hr ⟨.dealloc hr, h.dealloc hr⟩

end Books

theorem Syscall.copyFromUser_buf {t : Transfer T Buf} (hlen : len ≠ 0)
    (run : copyFromUser s ptr len = .ok t) (hb : t.result = some buf) : ∃ b, buf.ptr = some b := by
  unfold copyFromUser at run
  split at run
  · obtain rfl := Except.ok.inj run
    cases hb
  · simp only [bind_ok] at run
    obtain ⟨c, _, run⟩ := run
    split at run
    · unfold withCapacity at run
      rw [if_neg hlen] at run
      simp only [bind_ok, Except.ok.injEq] at run
      obtain ⟨_, ⟨⟨b, s₁⟩, _, rfl⟩, _, _, rfl⟩ := run
      obtain rfl := Option.some.inj hb
      exact ⟨b, rfl⟩
    · obtain rfl := Except.ok.inj run
      cases hb

/-- A name that was found came in a buffer. -/
theorem Syscall.withName_buf {lookup : List UInt8 → Option α}
    (run : withName s ptr len lookup = .ok (some (x, buf), s')) : ∃ b, buf = some b := by
  unfold withName at run
  split at run
  · cases run
  next hlen =>
    have hpos : len ≠ 0 := fun h => hlen (.inl h)
    simp only [bind_ok] at run
    obtain ⟨t, ht, run⟩ := run
    split at run
    · cases run
    next b hb =>
      split at run
      · simp only [bind_ok] at run
        obtain ⟨_, _, run⟩ := run
        cases run
      · obtain ⟨h1, _⟩ := Prod.mk.inj (Except.ok.inj run)
        obtain ⟨_, rfl⟩ := Prod.mk.inj (Option.some.inj h1)
        exact copyFromUser_buf hpos ht hb

/-- The current process `p` is in a system call, on its own table; `R` are all
other assets. -/
structure Serving (E : Env) (pool : PagePool E.allocStart) (s : Sys T) (i : Nat) (p : Process T)
    (t : Nat) (R : List Asset) : Prop where
  current : s.currentProc = some (i, p)
  space : p.userTable = some t
  satp : s.hart.satp = t
  books : Books E pool s (.proc p.toProcData :: R)

/-- The call is still being served, and no other process has changed. -/
def Served (E : Env) (pool : PagePool E.allocStart) (s : Sys T) (i t : Nat) (R : List Asset)
    (s' : Sys T) : Prop :=
  ∃ p', Serving E pool s' i p' t R ∧ ∀ j, j ≠ i → s'.proc j = s.proc j

namespace Serving

theorem of_books (hb : Books E pool s (.proc p.toProcData :: R)) (hc : s.currentProc = some (i, p))
    (hu : p.userTable = some t) (hs : s.hart.satp = p.pageTable) : Serving E pool s i p t R where
  current := hc
  space := hu
  satp := by
    rw [hs, (hb.roll.sound _ List.mem_cons_self).page, hu]
    rfl
  books := hb

theorem sound (h : Serving E pool s i p t R) : Sound E s.kernelRoot p.toProcData :=
  h.books.roll.sound _ List.mem_cons_self

theorem pageTable (h : Serving E pool s i p t R) : p.pageTable = t := by
  rw [h.sound.page, h.space]
  rfl

theorem holdings (h : Serving E pool s i p t R) :
    (.proc p.toProcData :: R).flatMap (Asset.holdings E) =
      (t, some (planOf E p.toProcData)) :: R.flatMap (Asset.holdings E) := by
  rw [List.flatMap_cons, Asset.holdings, h.space]
  rfl

/-- The caller's space, for the copy routines. -/
theorem caller (h : Serving E pool s i p t R) :
    Caller pool s ((.proc p.toProcData :: R).flatMap (Asset.holdings E))
      ((.proc p.toProcData :: R).flatMap (Asset.blocks E) ++ fixed s) t (planOf E p.toProcData) where
  owns := h.books.owns
  held := by
    rw [h.holdings]
    exact List.mem_cons_self
  root := by
    unfold Proc.currentRoot
    rw [h.current]
    exact h.pageTable
  satp := h.satp

theorem root (h : Serving E pool s i p t R) : UserRoot s.phys.mem s.kernelRoot t :=
  h.caller.laid.roots _ h.caller.held

theorem only_mem (h : Serving E pool s i p t R) (hm : OnlyMem s s')
    (hb : Books E pool s' (.proc p.toProcData :: R')) : Serving E pool s' i p t R' where
  current := hm.currentProc.trans h.current
  space := h.space
  satp := by
    rw [hm]
    exact h.satp
  books := hb

theorem served (h : Serving E pool s i p t R) (hm : OnlyMem s s')
    (hb : Books E pool s' (.proc p.toProcData :: R')) : Served E pool s i t R' s' :=
  ⟨p, h.only_mem hm hb, fun j _ => hm.proc j⟩

theorem refl (h : Serving E pool s i p t R) : Served E pool s i t R s := ⟨p, h, fun _ _ => rfl⟩

/-- The data of the calling process changes. -/
theorem setProc (h : Serving E pool s i p t R) (g : Process T → Process T)
    (ho : Owns pool s ((.proc (g p).toProcData :: R).flatMap (Asset.holdings E))
      ((.proc (g p).toProcData :: R).flatMap (Asset.blocks E) ++ fixed s))
    (hu : (g p).userTable = p.userTable) (hpid : (g p).pid = p.pid)
    (hs : Sound E s.kernelRoot (g p).toProcData) : Served E pool s i t R (s.setProc i g) := by
  obtain ⟨hcur, hp⟩ := Sys.currentProc_eq h.current
  have hproc : ∀ j, (s.setProc i g).proc j = if j = i then (s.proc j).map g else s.proc j :=
    fun j => Sys.proc_setProc s i j g
  refine ⟨g p, ⟨?_, hu.trans h.space, h.satp, ho, ?_⟩, fun j hj => ?_⟩
  · refine Sys.currentProc_some hcur ?_
    rw [hproc, if_pos rfl, hp]
    rfl
  · have hroll := h.books.roll
    refine ⟨hroll.start, fun d hd => ?_, fun d hd => ?_, ?_⟩
    · rcases List.mem_cons.mp hd with rfl | hd
      · exact hs
      · exact hroll.sound d (List.mem_cons_of_mem _ hd)
    · rcases List.mem_cons.mp hd with rfl | hd
      · have hold := hroll.pids _ List.mem_cons_self
        rw [← hpid] at hold
        exact hold
      · exact hroll.pids d (List.mem_cons_of_mem _ hd)
    · have hold : (p.pid :: (R.flatMap Asset.datas).map ProcData.pid).Nodup := hroll.distinct
      rw [← hpid] at hold
      exact hold
  · rw [hproc, if_neg hj]

theorem alloc_ends (h : Serving E pool s i p t R) (hsize : size + 2 ^ k ≤ 2 ^ 63) :
    Ends (· = .outOfHeap) (s.alloc size k) (fun r => OnlyMem s r.2 ∧
      Serving E pool r.2 i p t (.block ⟨r.1, size⟩ :: R)) := by
  refine (h.books.alloc_room_ends hsize).mono fun r ⟨hm, hb⟩ => ⟨hm, h.only_mem hm ?_⟩
  exact hb.perm (.swap _ _ _)

theorem dealloc_ends (h : Serving E pool s i p t (.block a :: R)) :
    Ends Never (s.dealloc a.ptr) (fun s' => OnlyMem s s' ∧ Serving E pool s' i p t R) := by
  have hb := h.books.perm (.swap _ _ _)
  exact hb.dealloc_ends.mono fun s' ⟨hm, hb⟩ => ⟨hm, h.only_mem hm hb⟩

theorem withCapacity_ends (h : Serving E pool s i p t R) (hlen : len < 2 ^ 63) :
    Ends (· = .outOfHeap) (withCapacity s len) (fun r => OnlyMem s r.2 ∧
      Serving E pool r.2 i p t ((bufBlock len r.1).map .block ++ R)) := by
  unfold withCapacity
  split
  · exact .ok ⟨.refl s, h⟩
  · refine (h.alloc_ends (k := 0) (by omega)).bind fun r _ hr => ?_
    exact .ok hr

/-- A buffer that `with_capacity` made goes away again. -/
theorem dropBuf_ends (h : Serving E pool s i p t ((bufBlock len buf).map .block ++ R)) :
    Ends Never (dropBuf s buf) (fun s' => OnlyMem s s' ∧ Serving E pool s' i p t R) := by
  cases buf with
  | none => exact .ok ⟨.refl s, h⟩
  | some b => exact dealloc_ends (a := ⟨b, len⟩) h

theorem copyFromUser_room_ends (h : Serving E pool s i p t R) (ptr len : Nat) :
    Ends (· = .outOfHeap) (copyFromUser s ptr len) (fun r => OnlyMem s r.sys ∧
      Serving E pool r.sys i p t
        ((r.result.elim [] (fun buf => bufBlock len buf.ptr)).map .block ++ R)) := by
  rcases copyFromUser_spec h.caller ptr len with ⟨_, hr⟩ | ⟨hready, ⟨e, hw, hr⟩ | ⟨buf, s', hw, hr⟩⟩
  · exact .of_ok hr ⟨.refl s, h⟩
  · have hlen : len < 2 ^ 63 := by
      have := hready.1
      unfold vaMax at this
      omega
    rw [hr]
    exact .error ((h.withCapacity_ends hlen).failure hw)
  · have hlen : len < 2 ^ 63 := by
      have := hready.1
      unfold vaMax at this
      omega
    exact .of_ok hr ((h.withCapacity_ends hlen).result hw)

theorem copyFromUser_ends (h : Serving E pool s i p t R) (ptr len : Nat) :
    Ends Lack (copyFromUser s ptr len) (fun r => OnlyMem s r.sys ∧
      Serving E pool r.sys i p t
        ((r.result.elim [] (fun buf => bufBlock len buf.ptr)).map .block ++ R)) :=
  (h.copyFromUser_room_ends ptr len).weaken fun _ he => .inl he

theorem copyToUser_ends (h : Serving E pool s i p t R) (ptr : Nat) (src : List UInt8) :
    Ends Never (copyToUser s ptr src) (fun r => OnlyMem s r.sys ∧ Serving E pool r.sys i p t R ∧
      ∀ n, r.result = some n → n = src.length) := by
  rcases copyToUser_spec h.caller ptr src with ⟨_, hr⟩ | ⟨_, m', hr, ho, _⟩
  · exact .of_ok hr ⟨.refl s, h, nofun⟩
  · have hm : OnlyMem s { s with phys := { s.phys with mem := m' } } := rfl
    refine .of_ok hr ⟨hm, h.only_mem hm (h.books.only_mem hm ho rfl), fun n hn => ?_⟩
    exact (Option.some.inj hn).symm

theorem sysWrite_ends (h : Serving E pool s i p t R) (ptr len : Nat) :
    Ends (· = .outOfHeap) (sysWrite s ptr len) (fun r => OnlyMem s r.2 ∧ Serving E pool r.2 i p t R) := by
  unfold sysWrite
  split
  · exact .ok ⟨.refl s, h⟩
  · refine (h.copyFromUser_room_ends ptr len).bind fun r _ ⟨hm, hr⟩ => ?_
    obtain ⟨result, touched, s₁⟩ := r
    cases result with
    | none => exact .ok ⟨hm, hr⟩
    | some buf =>
      refine hr.dropBuf_ends.never.bind fun s₂ _ ⟨hm', hr'⟩ => ?_
      exact .ok ⟨hm.trans hm', hr'⟩

theorem copyOut_ends (h : Serving E pool s i p t R) (ptr : Nat) (src : List UInt8) :
    Ends Never (copyOut s ptr src) (fun r => OnlyMem s r.2 ∧ Serving E pool r.2 i p t R) := by
  refine (h.copyToUser_ends ptr src).bind fun r _ ⟨hm, hr, _⟩ => ?_
  exact .ok ⟨hm, hr⟩

theorem withName_ends (h : Serving E pool s i p t R) (ptr len : Nat)
    (lookup : List UInt8 → Option α) :
    Ends (· = .outOfHeap) (withName s ptr len lookup) (fun r => OnlyMem s r.2 ∧
      Serving E pool r.2 i p t ((r.1.elim [] (fun x => bufBlock len x.2)).map .block ++ R)) := by
  unfold withName
  split
  · exact .ok ⟨.refl s, h⟩
  · refine (h.copyFromUser_room_ends ptr len).bind fun r _ ⟨hm, hr⟩ => ?_
    obtain ⟨result, touched, s₁⟩ := r
    cases result with
    | none => exact .ok ⟨hm, hr⟩
    | some buf =>
      dsimp only
      split
      · refine hr.dropBuf_ends.never.bind fun s₂ _ ⟨hm', hr'⟩ => ?_
        exact .ok ⟨hm.trans hm', hr'⟩
      · exact .ok ⟨hm, hr⟩

/-- A change of the descriptors that keeps every cursor inside its file. -/
theorem setFds (h : Serving E pool s i p t R) (g : List (Option FdEntry) → List (Option FdEntry))
    (hc : ∀ e, some e ∈ g p.fds → some e ∈ p.fds ∨ e.offset ≤ Fs.size E e.fileIdx) :
    Served E pool s i t R (s.setProc i (fun p => { p with fds := g p.fds })) := by
  refine h.setProc _ h.books.owns rfl rfl ?_
  have hs := h.sound
  refine ⟨hs.page, hs.seat, hs.image, hs.heap, hs.top, fun e he => ?_⟩
  exact (hc e he).elim (hs.cursors e) id

theorem fdInstall_served (h : Serving E pool s i p t R) (idx : Nat) :
    Served E pool s i t R (Proc.fdInstall s idx).2 := by
  unfold Proc.fdInstall
  rw [h.current]
  dsimp only
  cases p.fds.findIdx? Option.isNone with
  | none => exact h.refl
  | some fd =>
    refine h.setFds (fun l => l.set fd (some ⟨idx, 0⟩)) fun e he => ?_
    rcases List.mem_or_eq_of_mem_set he with he | he
    · exact .inl he
    · rw [Option.some.inj he]
      exact .inr (Nat.zero_le _)

theorem fdClose_served (h : Serving E pool s i p t R) (fd : Nat) :
    Served E pool s i t R (Proc.fdClose s fd).2 := by
  unfold Proc.fdClose
  rw [h.current]
  dsimp only
  cases (p.fds[fd]?).join with
  | none => exact h.refl
  | some _ =>
    refine h.setFds (fun l => l.set fd none) fun e he => ?_
    rcases List.mem_or_eq_of_mem_set he with he | he
    · exact .inl he
    · cases he

/-- The cursor goes on by what was read, which ends inside the file. -/
theorem fdAdvance_ends (h : Serving E pool s i p t R)
    (hd : ∀ e, (p.fds[fd]?).join = some e → e.offset + delta ≤ Fs.size E e.fileIdx) :
    Ends Never (Proc.fdAdvance s fd delta) (Served E pool s i t R) := by
  unfold Proc.fdAdvance
  rw [h.current]
  dsimp only
  cases he : (p.fds[fd]?).join with
  | none => exact .ok h.refl
  | some e =>
    have hlt := Nat.lt_of_le_of_lt (hd e he) (Fs.size_lt E e.fileIdx)
    dsimp only
    rw [show Heap.checked (e.offset + delta) = .ok (e.offset + delta) from if_pos hlt]
    refine .ok (h.setFds (fun l => l.set fd (some { e with offset := e.offset + delta }))
      fun e' he' => ?_)
    rcases List.mem_or_eq_of_mem_set he' with he' | he'
    · exact .inl he'
    · rw [Option.some.inj he']
      exact .inr (hd e he)

theorem sbrk_served (h : Serving E pool s i p t R) (delta : Nat) :
    Served E pool s i t R (Proc.sbrk s delta).2 := by
  unfold Proc.sbrk
  rw [h.current]
  dsimp only
  split
  · exact h.refl
  split
  · exact h.refl
  next hlt hmax =>
    have hs := h.sound
    have hnone : p.userTable ≠ none := by
      rw [h.space]
      exact nofun
    obtain ⟨hbase, hlo, hhi⟩ := hs.heap hnone
    refine h.setProc _ ?_ rfl rfl ⟨hs.page, hs.seat, hs.image, fun _ => ?_, hs.top, hs.cursors⟩
    · have ho := h.books.owns
      simp only [List.flatMap_cons, Asset.holdings, h.space] at ho ⊢
      exact ⟨ho.spaces.replan (fun hf => hf.grow (Nat.le_add_right _ _)), ho.heap⟩
    · exact ⟨hbase, Nat.le_add_right_of_le hlo, Nat.le_of_not_lt hmax⟩

/-- Which bytes `SYS_FREAD` copies never ends behind the file. -/
theorem readAt_le (ho : offset ≤ Fs.size E idx) :
    offset + (Fs.readAt E idx offset cap).length ≤ Fs.size E idx := by
  unfold Fs.size at ho
  unfold Fs.readAt Fs.size
  generalize E.files[idx]? = o at ho ⊢
  cases o with
  | none => exact ho
  | some f =>
    have hle : offset ≤ f.2.length := ho
    show offset + ((f.2.drop offset).take cap).length ≤ f.2.length
    rw [List.length_take, List.length_drop]
    omega

theorem sysOpen_ends (h : Serving E pool s i p t R) (ptr len : Nat) :
    Ends (· = .outOfHeap) (sysOpen E s ptr len) (fun r => Served E pool s i t R r.2) := by
  refine (h.withName_ends ptr len (Fs.lookup E)).bind fun r _ ⟨hm, hr⟩ => ?_
  obtain ⟨result, s₁⟩ := r
  cases result with
  | none => exact .ok (h.served hm hr.books)
  | some x =>
    obtain ⟨p', hp', hothers⟩ := hr.fdInstall_served x.1
    refine hp'.dropBuf_ends.never.bind fun s₂ _ ⟨hm', hr'⟩ => .ok ⟨p', hr', fun j hj => ?_⟩
    rw [hm'.proc, hothers j hj, hm.proc]

theorem sysFread_ends (h : Serving E pool s i p t R) (fd ptr len : Nat) :
    Ends (· = .outOfHeap) (sysFread E s fd ptr len) (fun r => Served E pool s i t R r.2) := by
  unfold sysFread
  cases hl : Proc.fdLookup s fd with
  | none => exact .ok h.refl
  | some x =>
    obtain ⟨idx, offset⟩ := x
    dsimp only
    split
    · exact .ok h.refl
    · have hcap : min len writeMax + 2 ^ 0 ≤ 2 ^ 63 := by
        unfold writeMax
        omega
      refine (h.alloc_ends hcap).bind fun r _ ⟨hm, hr⟩ => ?_
      refine (hr.copyToUser_ends ptr _).never.bind fun tr _ ⟨hm', htr, hn⟩ => ?_
      obtain ⟨result, touched, s₂⟩ := tr
      cases result with
      | none =>
        refine htr.dealloc_ends.never.bind fun s₃ _ ⟨hm'', hr'⟩ => ?_
        exact .ok (h.served (hm.trans (hm'.trans hm'')) hr'.books)
      | some written =>
        have hadv : ∀ e, (p.fds[fd]?).join = some e → e.offset + written ≤ Fs.size E e.fileIdx := by
          intro e he
          rw [Proc.fdLookup, h.current] at hl
          have hle := h.sound.cursors e (List.mem_of_getElem? (Option.join_eq_some_iff.mp he))
          simp only [Option.bind_some, he, Option.map_some, Option.some.injEq, Prod.mk.injEq] at hl
          rw [hn written rfl, ← hl.1, ← hl.2]
          exact readAt_le hle
        refine (htr.fdAdvance_ends hadv).never.bind fun s₃ _ ⟨p', hp', hothers⟩ => ?_
        refine hp'.dealloc_ends.never.bind fun s₄ _ ⟨hm'', hr'⟩ => .ok ⟨p', hr', fun j hj => ?_⟩
        rw [hm''.proc, hothers j hj, hm'.proc, hm.proc]

end Serving

/-- The faulting address lies in the heap, and its page is not mapped. -/
def Growable (s : Sys T) (p : Process T) (addr : Nat) : Prop :=
  p.heapBase ≤ addr ∧ addr < p.heapBrk ∧
    look (addr / pageSize * pageSize) 2 s.phys.mem p.pageTable = none

/-- What may come of a page fault. -/
inductive Faulted (E : Env) (pool : PagePool E.allocStart) (s : Sys T) (i : Nat) (p : Process T)
    (t : Nat) (R : List Asset) (addr : Nat) : Except Panic (Bool × Sys T) → Prop where
  | refused (why : ¬Growable s p addr ∨ s.phys.freePages = 0) :
      Faulted E pool s i p t R addr (.ok (false, s))
  | stuck (why : Growable s p addr) (some : 0 < s.phys.freePages)
      (few : s.phys.freePages ≤ missing (addr / pageSize * pageSize) 2 s.phys.mem t) :
      Faulted E pool s i p t R addr (.error .outOfPages)
  | mapped (why : Growable s p addr)
      (enough : missing (addr / pageSize * pageSize) 2 s.phys.mem t < s.phys.freePages) (P : Phys)
      (serving : Serving E pool { s with phys := P } i p t R)
      (hung : Hung pool s.kernelRoot (R.flatMap (Asset.holdings E)) s.phys P t
        (addr / pageSize * pageSize) dataPerm (fun P₁ _ => P₁.mem)) :
      Faulted E pool s i p t R addr (.ok (true, { s with phys := P }))

namespace Serving

/-- The addresses of the heap, by whole pages. -/
theorem heap_page (h : Serving E pool s i p t R) (hlo : p.heapBase ≤ addr) (hhi : addr < p.heapBrk) :
    userHeapBase ≤ addr / pageSize * pageSize ∧ addr / pageSize * pageSize < 0x80000000 := by
  have hnone : p.userTable ≠ none := by
    rw [h.space]
    exact nofun
  obtain ⟨hbase, _, hmax⟩ := h.sound.heap hnone
  have hbase : p.heapBase = 0x50000000 := hbase
  have hmax : p.heapBrk ≤ 0x60000000 := hmax
  show 0x50000000 ≤ addr / 4096 * 4096 ∧ addr / 4096 * 4096 < 0x80000000
  omega

theorem servicePageFault_spec (h : Serving E pool s i p t R) (addr : Nat) :
    Faulted E pool s i p t R addr (Proc.servicePageFault s addr) := by
  unfold Proc.servicePageFault
  rw [h.current]
  dsimp only
  split
  next hout => exact .refused (.inl fun hg => by obtain ⟨h1, h2, _⟩ := hg; omega)
  next hin =>
    obtain ⟨hbase, hbrk⟩ : p.heapBase ≤ addr ∧ addr < p.heapBrk := by omega
    obtain ⟨hlo, hhi⟩ := h.heap_page hbase hbrk
    have hva : addr / pageSize * pageSize < vaMax := Nat.lt_of_lt_of_le hhi (by decide)
    rw [translate_eq _ _ _ hva, ok_bind, h.pageTable]
    unfold lookup
    cases hl : look (addr / pageSize * pageSize) 2 s.phys.mem t with
    | some e =>
      refine .refused (.inl fun hg => ?_)
      have hn := hg.2.2
      rw [h.pageTable, hl] at hn
      cases hn
    | none =>
      have hgrow : Growable s p addr := ⟨hbase, hbrk, by rw [h.pageTable]; exact hl⟩
      have hsp := h.books.owns.spaces
      rw [h.holdings] at hsp
      obtain ⟨⟨o, P⟩, ha⟩ := hsp.pool.alloc_total
      dsimp only [Option.map_none]
      rw [ha, ok_bind]
      cases o with
      | none =>
        obtain ⟨rfl, hz⟩ := hsp.pool.alloc_none ha
        exact .refused (.inr hz)
      | some frame =>
        have hpage : allocPage s.phys = .ok (frame, P) := by
          unfold allocPage
          rw [ha, ok_bind]
        have hsome := (hsp.pool.alloc_some ha).2.1
        have hfit := hsp.fits _ List.mem_cons_self _ rfl
        have hal : addr / pageSize * pageSize % 4096 = 0 := Nat.mul_mod_left _ _
        have hbelow : addr / pageSize * pageSize / pageSize * pageSize < p.heapBrk := by
          rw [Nat.mul_div_cancel _ (by decide)]
          exact Nat.lt_of_le_of_lt (Nat.div_mul_le_self _ _) hbrk
        have hadd := hsp.add_ends (Nat.le_trans (by decide) hlo) hhi hal
          (show dataPerm < 256 by decide) (by decide) hl (fun P₁ _ => P₁.mem)
          (fun _ _ => .refl _ _) (fun _ _ _ ha => hfit.add_heap hlo hbelow hal ha)
        rw [hpage, ok_bind] at hadd
        dsimp only at hadd ⊢
        cases hm : mapPages P t (addr / pageSize * pageSize) frame pageSize dataPerm with
        | error e =>
          obtain ⟨rfl, hfew⟩ := hadd.failure hm
          exact .stuck hgrow (by omega) hfew
        | ok P' =>
          obtain ⟨hs', hung⟩ := hadd.result hm
          have hcount := hung.count
          rw [ok_bind]
          refine .mapped hgrow (by omega) P' (h.only_mem (.phys s P')
            (h.books.pages ?_ hung.spared.outside rfl rfl)) hung
          rw [h.holdings]
          exact hs'

theorem servicePageFault_ends (h : Serving E pool s i p t R) (addr : Nat) :
    Ends Lack (Proc.servicePageFault s addr) (fun r => OnlyMem s r.2 ∧
      Serving E pool r.2 i p t R) := by
  have hspec := h.servicePageFault_spec addr
  generalize Proc.servicePageFault s addr = r at hspec
  cases hspec with
  | refused _ => exact .ok ⟨.refl s, h⟩
  | stuck _ _ _ => exact .error (.inr rfl)
  | mapped _ _ P hs _ => exact .ok ⟨.phys s P, hs⟩

theorem goto (h : Serving E pool s i p t R) (c : List (Instr T)) :
    Serving E pool (s.goto c) i p t R :=
  ⟨h.current, h.space, h.satp, h.books.congr rfl rfl rfl rfl rfl⟩

end Serving

/-- The call has been handled up to its remaining code. Only a name that `exec`
found leaves a block behind that nobody owns. -/
def Handled (E : Env) (pool : PagePool E.allocStart) (s : Sys T) (i t : Nat) (R : List Asset)
    (s' : Sys T) : Prop :=
  ∃ leak, Served E pool s i t (leak.map .block ++ (s'.hart.code.flatMap (carried E) ++ R)) s' ∧
    ((leak = [] ∧ ∀ prog, s'.hart.code ≠ [.loadImage prog .exec]) ∨
      ∃ a prog, leak = [a] ∧ s'.hart.code = [.loadImage prog .exec])

namespace Served

variable {s₁ : Sys T}

theorem goto (h : Served E pool s i t R s₁) (c : List (Instr T)) :
    Served E pool s i t R (s₁.goto c) := by
  obtain ⟨p', hp', hothers⟩ := h
  exact ⟨p', hp'.goto c, hothers⟩

/-- Code that carries nothing. -/
theorem handled (h : Served E pool s i t R s₁) (c : List (Instr T))
    (hc : c.flatMap (carried E) = []) (hne : ∀ prog, c ≠ [.loadImage prog .exec]) :
    Handled E pool s i t R (s₁.goto c) := by
  refine ⟨[], ?_, .inl ⟨rfl, hne⟩⟩
  show Served E pool s i t (c.flatMap (carried E) ++ R) _
  rw [hc]
  exact h.goto c

theorem returns (h : Served E pool s i t R s₁) (f : TrapFrame) (n : Nat) :
    Handled E pool s i t R (s₁.goto [.sysRet f n]) := h.handled _ rfl nofun

end Served

namespace Serving

theorem sysRead_ends (h : Serving E pool s i p t R) (f : TrapFrame) (ptr len : Nat) :
    Ends (· = .outOfHeap) (sysRead s f ptr len) (Handled E pool s i t R) := by
  unfold sysRead
  split
  · exact .ok (h.refl.returns f 0)
  · have hcap : min len writeMax + 2 ^ 0 ≤ 2 ^ 63 := by
      unfold writeMax
      omega
    refine (h.alloc_ends hcap).bind fun r _ ⟨hm, hr⟩ => .ok ⟨[], ?_, .inl ⟨rfl, nofun⟩⟩
    exact (h.served hm hr.books).goto _

theorem sysExec_ends (h : Serving E pool s i p t R) (f : TrapFrame) (ptr len : Nat) :
    Ends (· = .outOfHeap) (sysExec s f ptr len) (Handled E pool s i t R) := by
  refine (h.withName_ends ptr len User.lookup).bind fun r run ⟨hm, hr⟩ => ?_
  obtain ⟨result, s₁⟩ := r
  cases result with
  | none => exact .ok ((h.served hm hr.books).returns f err)
  | some x =>
    obtain ⟨prog, buf⟩ := x
    obtain ⟨b, rfl⟩ := withName_buf run
    exact .ok ⟨[⟨b, len⟩], (h.served hm hr.books).goto _, .inr ⟨_, prog, rfl, rfl⟩⟩

theorem dispatch_ends (h : Serving E pool s i p t R) (hpc : f.sepc + 4 < 2 ^ 64) :
    Ends (· = .outOfHeap) (dispatch E s f) (Handled E pool s i t R) := by
  have mem : ∀ {x : Except Panic (Nat × Sys T)} {g : TrapFrame},
      Ends (· = .outOfHeap) x (fun r => OnlyMem s r.2 ∧ Serving E pool r.2 i p t R) →
      Ends (· = .outOfHeap) ((fun r : Nat × Sys T => r.2.goto [.sysRet g r.1]) <$> x) (Handled E pool s i t R) :=
    fun hx => hx.map fun r ⟨hm, hr⟩ => (h.served hm hr.books).returns _ r.1
  have call : ∀ {x : Except Panic (Nat × Sys T)} {g : TrapFrame},
      Ends (· = .outOfHeap) x (fun r => Served E pool s i t R r.2) →
      Ends (· = .outOfHeap) ((fun r : Nat × Sys T => r.2.goto [.sysRet g r.1]) <$> x) (Handled E pool s i t R) :=
    fun hx => hx.map fun r hr => hr.returns _ r.1
  unfold dispatch
  rw [show Heap.checked (f.sepc + 4) = .ok (f.sepc + 4) from if_pos hpc, ok_bind]
  dsimp only
  split
  · exact mem (h.sysWrite_ends _ _)
  · exact .ok (h.refl.handled _ rfl nofun)
  · exact .ok (h.refl.handled _ rfl nofun)
  · exact .ok (h.refl.returns _ _)
  · exact h.sysRead_ends _ _ _
  · exact mem (h.copyOut_ends _ _).never
  · exact call (h.sysOpen_ends _ _)
  · exact call (h.sysFread_ends _ _ _)
  · exact .ok ((h.sbrk_served _).returns _ _)
  · exact .ok (h.refl.handled _ rfl nofun)
  · exact .ok (h.refl.handled _ rfl nofun)
  · exact h.sysExec_ends _ _ _
  · exact .ok ((h.fdClose_served _).returns _ _)
  · exact .ok (h.refl.handled _ rfl nofun)
  · exact .ok (h.refl.returns _ _)

theorem dispatch_pc (run : dispatch E s f = .ok s') : f.sepc + 4 < 2 ^ 64 := by
  unfold dispatch Heap.checked at run
  by_contra hpc
  rw [if_neg hpc] at run
  cases run

theorem kerneltrap_handled (h : Serving E pool s i p t R)
    (run : Trap.kerneltrap E s f code stval = .ok s') : Handled E pool s i t R s' := by
  unfold Trap.kerneltrap at run
  split at run
  · simp only [bind_ok, Except.ok.injEq] at run
    obtain ⟨_, _, _, _, rfl⟩ := run
    exact h.refl.handled _ rfl nofun
  split at run
  · exact (h.dispatch_ends (dispatch_pc run)).result run
  split at run
  · simp only [bind_ok] at run
    obtain ⟨⟨b, s₁⟩, hf, run⟩ := run
    obtain ⟨hm, hr⟩ := (h.servicePageFault_ends stval).result hf
    have hserved := h.served hm hr.books
    cases b with
    | true =>
      obtain rfl := Except.ok.inj run
      exact hserved.handled _ rfl nofun
    | false =>
      obtain rfl := Except.ok.inj run
      exact hserved.handled _ rfl nofun
  · obtain rfl := Except.ok.inj run
    exact h.refl.handled _ rfl nofun

/-- `SYS_READ` hands out what it read and drops its buffer. -/
theorem readRest_ends (h : Serving E pool s i p t (.block ⟨buf, cap⟩ :: R)) (f : TrapFrame)
    (ptr : Nat) (byte : UInt8) :
    Ends Never (readRest s f ptr cap buf byte) (Handled E pool s i t R) := by
  unfold readRest
  have hd := drain_eq s (cap - 1)
  have hs : Serving E pool (drain s (cap - 1)).2 i p t (.block ⟨buf, cap⟩ :: R) := by
    rw [hd]
    exact ⟨h.current, h.space, h.satp, h.books.congr rfl rfl rfl rfl rfl⟩
  have hproc : ∀ j, (drain s (cap - 1)).2.proc j = s.proc j := by
    rw [hd]
    exact fun _ => rfl
  dsimp only
  refine (hs.copyOut_ends ptr _).bind fun r _ ⟨hm, hr⟩ => ?_
  refine hr.dealloc_ends.bind fun s₂ _ ⟨hm', hr'⟩ => .ok ?_
  refine Served.returns ⟨p, hr', fun j _ => ?_⟩ f r.1
  rw [hm'.proc, hm.proc, hproc]

end Serving
end Osmium
