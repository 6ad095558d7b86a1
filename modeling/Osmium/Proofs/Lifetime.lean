import Osmium.Proofs.Serving

namespace Osmium
open Lib Vm

variable {T : Type} {E : Env} {pool : PagePool E.allocStart} {s s' : Sys T}

/-- The process that `spawn_with` hands to its caller's configuration. -/
def Proc.newborn (entry : Entry) (kroot pid kstack box : Nat) : ProcData :=
  { pid, entry, kstack, box
    kstackTop := (kstack + kstackSize) / 16 * 16
    userEntry := 0
    userSp := 0
    pageTable := kroot
    userTable := none
    heapBase := 0
    heapBrk := 0
    fds := List.replicate maxFds none
    forkFrame := none
    image := none }

/-- A configuration of a new process that makes it the owner of `A`. -/
def Proc.Adopts (E : Env) (kroot pid : Nat) (entry : Entry) (cfg : ProcData → ProcData)
    (A : List Asset) : Prop :=
  ∀ kstack box, (cfg (newborn entry kroot pid kstack box)).pid = pid ∧
    Sound E kroot (cfg (newborn entry kroot pid kstack box)) ∧
    (Asset.proc (cfg (newborn entry kroot pid kstack box))).holdings E =
      A.flatMap (Asset.holdings E) ∧
    (Asset.proc (cfg (newborn entry kroot pid kstack box))).blocks E =
      ⟨kstack, kstackSize⟩ :: ⟨box, E.processSize⟩ :: A.flatMap (Asset.blocks E)

theorem Proc.newborn_sound (entry : Entry) (kroot pid kstack box : Nat) (he : entry = .kernel) :
    Sound E kroot (newborn entry kroot pid kstack box) where
  page := rfl
  seat _ := he
  image h := absurd rfl h
  heap h := absurd rfl h
  top := rfl
  cursors e he := by
    cases List.eq_of_mem_replicate he

namespace Books

variable {as : List Asset} {entry : Entry}

/-- A fresh number. -/
theorem number (h : Books E pool s as) :
    Books E pool { s with nextPid := s.nextPid + 1 } as where
  owns := h.owns
  roll :=
    ⟨Nat.succ_pos _, h.roll.sound,
      fun d hd => ⟨(h.roll.pids d hd).1, Nat.lt_succ_of_lt (h.roll.pids d hd).2⟩, h.roll.distinct⟩

/-- A process up to its publication, if the heap has room for it. -/
theorem spawnWith_room_ends (h : Books E pool s (A ++ as)) (hA : A.flatMap Asset.datas = [])
    (hcfg : Proc.Adopts E s.kernelRoot s.nextPid entry cfg A) :
    Ends (· = .outOfHeap) (Proc.spawnWith E s entry cfg) (fun r =>
      HeapWork E { s with nextPid := s.nextPid + 1 } r.2 ∧
      (∃ kstack box, r.1 = cfg (Proc.newborn entry s.kernelRoot s.nextPid kstack box)) ∧
      Books E pool r.2 (.proc r.1 :: as)) := by
  refine (h.alloc_room_ends (k := 0) (by decide)).bind fun r ha ⟨hm, hb⟩ => ?_
  obtain ⟨kstack, s₁⟩ := r
  have hsize : E.processSize + 2 ^ 3 ≤ 2 ^ 63 := by
    have := E.processSize_pos
    omega
  refine (hb.number.alloc_room_ends hsize).bind fun r ha' ⟨hm', hb'⟩ => .ok ?_
  obtain ⟨box, s₂⟩ := r
  have hwork : HeapWork E { s with nextPid := s.nextPid + 1 } s₂ := by
    have hw : HeapWork E s s₁ := .alloc h.owns ha
    have hw' : HeapWork E { s₁ with nextPid := s₁.nextPid + 1 } s₂ := .alloc hb.number.owns ha'
    have hw₁ : HeapWork E { s with nextPid := s.nextPid + 1 } { s₁ with nextPid := s₁.nextPid + 1 } :=
      ⟨by rw [hw.only]; rfl, hw.head, hw.count, hw.heap⟩
    exact hw₁.trans hw'
  dsimp only at hm hb hm' hb' ⊢
  have hroot : s₂.kernelRoot = s.kernelRoot := by rw [hm', hm]
  have hnext : s₂.nextPid = s.nextPid + 1 := by rw [hm', hm]
  have hpid : s₁.nextPid = s.nextPid := by rw [hm]
  rw [hroot, hpid]
  refine ⟨hwork, ⟨kstack, box, rfl⟩, ?_⟩
  generalize hd : cfg _ = d
  obtain ⟨hp, hsound, hhold, hblocks⟩ := hcfg kstack box
  rw [show cfg (Proc.newborn entry s.kernelRoot s.nextPid kstack box) = d from hd] at *
  have hroll := hb'.roll
  rw [hroot, hnext] at hroll
  have hold := h.roll
  simp only [List.flatMap_cons, List.flatMap_append, hA, Asset.datas, List.nil_append] at hroll hold
  refine Books.trade (A := [.block ⟨box, E.processSize⟩, .block ⟨kstack, kstackSize⟩] ++ A)
    (B := [.proc d]) hb' ?_ ?_ ?_
  · simp only [List.flatMap_append, List.flatMap_singleton, hhold]
    exact .refl _
  · simp only [List.flatMap_append, List.flatMap_singleton, hblocks]
    exact .swap _ _ _
  · rw [hroot, hnext]
    refine ⟨hroll.start, fun d' hd' => ?_, fun d' hd' => ?_, ?_⟩
    · rcases List.mem_cons.mp hd' with rfl | hd'
      · exact hsound
      · exact hroll.sound d' hd'
    · rcases List.mem_cons.mp hd' with rfl | hd'
      · rw [hp]
        exact ⟨hold.start, Nat.lt_succ_self _⟩
      · exact hroll.pids d' hd'
    · refine List.nodup_cons.mpr ⟨fun hin => ?_, hroll.distinct⟩
      obtain ⟨d', hd', he⟩ := List.mem_map.mp hin
      have hlt := (hold.pids d' hd').2
      omega

theorem spawnWith_ends (h : Books E pool s (A ++ as)) (hA : A.flatMap Asset.datas = [])
    (hcfg : Proc.Adopts E s.kernelRoot s.nextPid entry cfg A) :
    Ends (· = .outOfHeap) (Proc.spawnWith E s entry cfg) (fun r => r.2.procs = s.procs ∧
      (∃ kstack box, r.1 = cfg (Proc.newborn entry s.kernelRoot s.nextPid kstack box)) ∧
      Books E pool r.2 (.proc r.1 :: as)) := by
  refine (h.spawnWith_room_ends hA hcfg).mono fun r ⟨hw, hd, hb⟩ => ⟨?_, hd, hb⟩
  rw [hw.only]

/-- The kernel's own blocks change. -/
theorem refix (h : Books E pool s as) (hk : s'.kernelRoot = s.kernelRoot)
    (hn : s'.nextPid = s.nextPid) (ho : Owns pool s' (as.flatMap (Asset.holdings E)) live)
    (hl : live.Perm (as.flatMap (Asset.blocks E) ++ fixed s')) : Books E pool s' as where
  owns := ho.perm (.refl _) hl
  roll := by
    rw [hk, hn]
    exact h.roll

theorem procsCap_le (h : Books E pool s as) : 8 * s.procsCap ≤ heapSize := by
  by_cases hz : s.procsCap = 0
  · rw [hz]
    decide
  · have hin : (⟨s.procsPtr, 8 * s.procsCap⟩ : Heap.Live) ∈ as.flatMap (Asset.blocks E) ++ fixed s := by
      unfold fixed
      rw [if_neg hz]
      exact List.mem_append_right _ List.mem_cons_self
    have hb := h.owns.heap.bounds hin
    dsimp only at hb
    omega

/-- A full table moves to a larger buffer, if the heap has room for one. -/
theorem growProcs_room_ends (h : Books E pool s as) (hr : Roomy s) :
    Ends (· = .outOfHeap) (Proc.growProcs s) (fun s' => Books E pool s' as ∧
      HeapWork E { s with procsPtr := s'.procsPtr, procsCap := s'.procsCap } s') := by
  unfold Proc.growProcs
  split
  · exact .ok ⟨h, .refl s⟩
  · have hle := h.procsCap_le
    unfold Roomy at hr
    generalize hcap : max (max (2 * s.procsCap) (s.procs.length + 1)) 4 = cap
    have hpos : cap ≠ 0 := by omega
    have hsize : 8 * cap + 2 ^ 3 ≤ 2 ^ 63 := by
      unfold heapSize at hle
      omega
    refine (h.alloc_room_ends hsize).bind fun r ha ⟨hm, hb⟩ => ?_
    obtain ⟨p, s₁⟩ := r
    dsimp only at ha hm hb ⊢
    have hwork : HeapWork E s s₁ := .alloc h.owns ha
    have hboxes : s₁.boxes = s.boxes := by rw [hm]
    have hfix : ∀ s₂ : Sys T, fixed { s₂ with procsPtr := p, procsCap := cap } =
        ⟨p, 8 * cap⟩ :: s₂.boxes := fun s₂ => by
      unfold fixed
      rw [if_neg hpos]
      rfl
    have hmoved : ∀ s₂ : Sys T, HeapWork E s s₂ → HeapWork E { s with procsPtr := p, procsCap := cap }
        { s₂ with procsPtr := p, procsCap := cap } := fun s₂ hw =>
      ⟨by rw [hw.only]; rfl, hw.head, hw.count, hw.heap⟩
    split
    next hz =>
      refine .ok ⟨refix h ?_ ?_ hb.owns ?_, hmoved s₁ hwork⟩
      · rw [hm]
      · rw [hm]
      · have hf : fixed s₁ = s₁.boxes := by
          unfold fixed
          rw [if_pos (show s₁.procsCap = 0 by rw [hm]; exact hz)]
          rfl
        rw [hfix, hf, List.flatMap_cons]
        exact List.perm_middle.symm
    next hz =>
      have hf : fixed s₁ = ⟨s.procsPtr, 8 * s.procsCap⟩ :: s₁.boxes := by
        unfold fixed
        rw [if_neg (show s₁.procsCap ≠ 0 by rw [hm]; exact hz), hm]
        rfl
      have ho := hb.owns
      rw [hf] at ho
      have ho := ho.perm (.refl _) List.perm_middle
      obtain ⟨s₂, hd⟩ := ho.dealloc_total
      have hm₂ := OnlyMem.dealloc hd
      rw [show s₁.dealloc s.procsPtr = .ok s₂ from hd, ok_bind]
      refine .ok ⟨refix h ?_ ?_ (ho.dealloc hd).1 ?_, hmoved s₂ (hwork.trans (.dealloc ho hd))⟩
      · rw [hm₂, hm]
      · rw [hm₂, hm]
      · rw [hfix, List.flatMap_cons, show s₂.boxes = s₁.boxes by rw [hm₂]]
        exact List.perm_middle.symm

theorem publish_ends (h : Books E pool s as) (hr : Roomy s) (d : ProcData) :
    Ends (· = .outOfHeap) (Proc.publish s d) (fun s' => Books E pool s' as) := by
  unfold Proc.publish
  split
  · exact .ok (h.congr rfl rfl rfl rfl rfl)
  · refine (h.growProcs_room_ends hr).bind fun s₁ _ ⟨hb, _⟩ => .ok ?_
    exact hb.congr rfl rfl rfl rfl rfl

theorem box_kept (h : Books E pool s as) (run : Proc.box s size k = .ok s') :
    Books E pool s' as := by
  unfold Proc.box at run
  split at run
  · obtain rfl := Except.ok.inj run
    exact h
  · simp only [bind_ok, Except.ok.injEq] at run
    obtain ⟨⟨p, s₁⟩, ha, rfl⟩ := run
    have hb := h.alloc ha
    refine refix h ?_ ?_ hb.owns ?_
    · rw [OnlyMem.alloc ha]
    · rw [OnlyMem.alloc ha]
    · unfold fixed
      dsimp only
      generalize (if s₁.procsCap = 0 then [] else [_]) = v
      rw [← List.append_assoc v, ← List.append_assoc (as.flatMap _)]
      exact (List.perm_append_singleton _ _).symm

/-- A block in the hands of a kernel thread, in front of all others. -/
theorem boxed (h : Books E pool s as) (ha : s.boxes[i]? = some a) :
    Owns pool s (as.flatMap (Asset.holdings E)) (a :: (as.flatMap (Asset.blocks E) ++
      ((if s.procsCap = 0 then [] else [⟨s.procsPtr, 8 * s.procsCap⟩]) ++ s.boxes.eraseIdx i))) := by
  have hperm : s.boxes.Perm (a :: s.boxes.eraseIdx i) := by
    obtain ⟨hi, rfl⟩ := List.getElem?_eq_some_iff.mp ha
    exact (List.getElem_cons_eraseIdx_perm hi).symm
  refine h.owns.perm (.refl _) ?_
  rw [fixed, ← List.append_assoc, ← List.append_assoc]
  exact (hperm.append_left _).trans List.perm_middle

theorem unbox_ends (h : Books E pool s as) (i : Nat) :
    Ends Never (Proc.unbox s i) (fun s' => Books E pool s' as) := by
  unfold Proc.unbox
  split
  · exact .ok h
  next a ha =>
    have ho := h.boxed ha
    obtain ⟨s₁, hd⟩ := ho.dealloc_total
    have hm := OnlyMem.dealloc hd
    rw [hd, ok_bind]
    refine .ok (refix h ?_ ?_ (ho.dealloc hd).1 ?_)
    · rw [hm]
    · rw [hm]
    · rw [fixed, hm]

/-- What a process owns, apart. -/
theorem dissolve (h : Books E pool s (.proc d :: as)) :
    Books E pool s ((d.userTable.map (.table · (some (planOf E d)))).toList ++
      ((d.forkFrame.map (fun f => .block ⟨f.1, Proc.frameSize⟩)).toList ++
        ([.block ⟨d.kstack, kstackSize⟩, .block ⟨d.box, E.processSize⟩] ++ as))) := by
  rw [← List.append_assoc, ← List.append_assoc]
  refine Books.trade (A := [.proc d]) h ?_ ?_ ?_
  · simp only [List.flatMap_singleton, Asset.holdings, List.flatMap_append]
    cases d.userTable <;> cases d.forkFrame <;> exact .refl _
  · simp only [List.flatMap_singleton, Asset.blocks, List.flatMap_append]
    cases d.userTable <;> cases d.forkFrame
    · exact .refl _
    · exact List.perm_append_singleton _ [_, _]
    · exact .refl _
    · exact List.perm_append_singleton _ [_, _]
  · have hr := h.roll
    cases d.userTable <;> cases d.forkFrame <;>
      exact ⟨hr.start, fun d' hd => hr.sound d' (List.mem_cons_of_mem _ hd),
        fun d' hd => hr.pids d' (List.mem_cons_of_mem _ hd), (List.nodup_cons.mp hr.distinct).2⟩

theorem dropFrame_ends (h : Books E pool s
      ((f.map (fun f : Nat × TrapFrame => Asset.block ⟨f.1, Proc.frameSize⟩)).toList ++ as)) :
    Ends Never (Proc.dropFrame s f) (fun s' => OnlyMem s s' ∧ Books E pool s' as) := by
  cases f with
  | none => exact .ok ⟨.refl s, h⟩
  | some f => exact dealloc_ends (a := ⟨f.1, Proc.frameSize⟩) h

theorem freeTable_ends (h : Books E pool s (.table t o :: as)) :
    Ends Never (Proc.freeTable E s t) (fun s' => OnlyMem s s' ∧ Books E pool s' as) := by
  obtain ⟨P, hr, hb, _⟩ := h.free
  exact .of_ok hr ⟨.freeTable hr, hb⟩

theorem freeSpace_ends {o : Option Nat} (h : Books E pool s ((o.map (Asset.table · pl)).toList ++ as)) :
    Ends Never (match o with
      | none => .ok s
      | some table => Proc.freeTable E s table) (fun s' => Books E pool s' as) := by
  cases o with
  | none => exact .ok h
  | some t => exact (freeTable_ends h).mono fun _ hs => hs.2

theorem reap_ends (h : Books E pool s (.proc p.toProcData :: as)) (hp : s.proc i = some p)
    (hz : p.state = .zombie) : Ends Never (Proc.reap E s i) (fun s' => Books E pool s' as) := by
  unfold Proc.reap
  rw [hp]
  dsimp only
  rw [if_pos hz]
  have hb := h.dissolve
  refine hb.freeSpace_ends.bind fun s₁ _ h₁ => ?_
  unfold Proc.dropProcess
  suffices hdrop : Ends Never _ (fun s' => Books E pool s' as) from
    hdrop.bind fun s₂ _ h₂ => .ok (h₂.congr rfl rfl rfl rfl rfl)
  refine h₁.dropFrame_ends.bind fun s₂ _ h₂ => ?_
  refine (dealloc_ends (a := ⟨p.kstack, kstackSize⟩) h₂.2).bind fun s₃ _ h₃ => ?_
  exact (dealloc_ends (a := ⟨p.box, E.processSize⟩) h₃.2).mono fun _ h => h.2

/-- The fork frame of a process, apart from it. -/
theorem unframe (h : Books E pool s (.proc d :: as)) :
    Books E pool s ((d.forkFrame.map (fun f => Asset.block ⟨f.1, Proc.frameSize⟩)).toList ++
      (.proc { d with forkFrame := none } :: as)) := by
  have hr := h.roll
  have hroll : Enrolled E s.kernelRoot s.nextPid ({ d with forkFrame := none } :: as.flatMap Asset.datas) := by
    refine ⟨hr.start, fun d' hd => ?_, fun d' hd => ?_, hr.distinct⟩
    · rcases List.mem_cons.mp hd with rfl | hd
      · have hs := hr.sound d List.mem_cons_self
        exact ⟨hs.page, hs.seat, hs.image, hs.heap, hs.top, hs.cursors⟩
      · exact hr.sound d' (List.mem_cons_of_mem _ hd)
    · rcases List.mem_cons.mp hd with rfl | hd
      · exact hr.pids d List.mem_cons_self
      · exact hr.pids d' (List.mem_cons_of_mem _ hd)
  rw [List.append_cons]
  refine Books.trade (A := [.proc d]) h ?_ ?_ ?_
  · cases d.forkFrame <;> exact .refl _
  · simp only [List.flatMap_singleton, Asset.blocks, List.flatMap_append]
    cases d.forkFrame with
    | none => exact .refl _
    | some f => exact List.perm_append_singleton _ [_, _]
  · cases d.forkFrame <;> exact hroll

/-- The process moves into a freshly loaded space and leaves its old one. -/
theorem rehouse (h : Books E pool s (.table t (some ⟨Proc.npages E prog, true, userHeapBase⟩) ::
      .proc p.toProcData :: as)) (hf : p.forkFrame = none) :
    Books E pool s (.proc (Proc.takeSpace prog t p).toProcData ::
      ((p.userTable.map (.table · none)).toList ++ as)) where
  owns := by
    have ho := h.owns
    have hblocks : (Asset.proc (Proc.takeSpace prog t p).toProcData).blocks E =
        (Asset.proc p.toProcData).blocks E := by
      simp only [Asset.blocks, hf]
      rfl
    simp only [List.flatMap_cons, List.flatMap_append, hblocks] at ho ⊢
    simp only [Asset.holdings] at ho ⊢
    generalize p.userTable = u at ho ⊢
    cases u with
    | none => exact ho
    | some old => exact ⟨(ho.spaces.perm (.swap _ _ _)).forget.perm (.swap _ _ _), ho.heap⟩
  roll := by
    have hr := h.roll
    have hs := hr.sound p.toProcData List.mem_cons_self
    have hmax : userHeapBase ≤ userHeapMax := by decide
    have hdatas : ((p.userTable.map (Asset.table · none)).toList).flatMap Asset.datas = [] := by
      cases p.userTable <;> rfl
    rw [List.flatMap_cons, List.flatMap_append, hdatas]
    refine ⟨hr.start, fun d' hd => ?_, fun d' hd => ?_, hr.distinct⟩
    · rcases List.mem_cons.mp hd with rfl | hd
      · exact ⟨rfl, (fun h => by cases h), (fun _ h => by cases h), fun _ => ⟨rfl, Nat.le_refl _, hmax⟩, hs.top, hs.cursors⟩
      · exact hr.sound d' (List.mem_cons_of_mem _ hd)
    · rcases List.mem_cons.mp hd with rfl | hd
      · exact hr.pids p.toProcData List.mem_cons_self
      · exact hr.pids d' (List.mem_cons_of_mem _ hd)

theorem execCommit_ends (h : Books E pool s
      (.table t (some ⟨Proc.npages E prog, true, userHeapBase⟩) :: .proc p.toProcData :: as))
    (hc : s.currentProc = some (i, p)) :
    Ends Never (Proc.execCommit s prog t) (fun s' =>
      ∃ s₁, OnlyMem s s₁ ∧ s' = (s₁.setProc i (Proc.takeSpace prog t)).goto (Proc.execRest t p) ∧
      Books E pool s' (.proc (Proc.takeSpace prog t p).toProcData ::
        ((p.userTable.map (.table · none)).toList ++ as))) := by
  unfold Proc.execCommit
  rw [hc]
  have hb := (h.perm (.swap _ _ _)).unframe
  refine hb.dropFrame_ends.bind fun s₁ _ ⟨hm, h₁⟩ => .ok ⟨s₁, hm, rfl, ?_⟩
  exact (rehouse (p := { p with forkFrame := none }) (h₁.perm (.swap _ _ _)) rfl).congr
    rfl rfl rfl rfl rfl

theorem clone_ends (h : Books E pool s as) (hd : .proc d ∈ as) (ht : d.userTable = some t) :
    Ends (fun e => e = .outOfPages ∧ ¬1 + 3 * (userFrames s.phys.mem t).length ≤ s.phys.freePages)
      (cloneUserTable s.phys s.kernelRoot t) (fun r =>
        Books E pool { s with phys := r.2 } (.table r.1 (some (planOf E d)) :: as) ∧
          Cloned pool s.phys.mem s.kernelRoot t r.1
            (claimed s.phys.mem s.kernelRoot (as.flatMap (Asset.holdings E))) (fun _ _ => True) r.2) := by
  have hsp := h.owns.spaces
  have hx : (t, some (planOf E d)) ∈ as.flatMap (Asset.holdings E) := by
    refine List.mem_flatMap.mpr ⟨_, hd, ?_⟩
    rw [Asset.holdings, ht]
    exact List.mem_cons_self
  have hown : ∀ q ∈ owned s.phys.mem t,
      q ∈ claimed s.phys.mem s.kernelRoot (as.flatMap (Asset.holdings E)) := fun q hq =>
    List.mem_append_right _ (List.mem_flatMap.mpr ⟨_, hx, hq⟩)
  have hperm : Permitted s.phys.mem t := by
    intro va hva hu e he
    obtain ⟨f, perm, hallow, hleaf⟩ := (hsp.fits _ hx _ rfl).leaves va hva hu e he
    obtain ⟨hlt, hub, _, hmask⟩ := hallow.bits
    rw [hleaf.flag hlt (by decide) (by decide), hmask]
    intro hz
    rw [hz] at hub
    exact hub (Nat.zero_and _)
  have hends := cloneUserTable_ends hsp.pool (tables_claimed (kroot_tables _ _ _)) hsp.kernel.slot
    hown hperm
  refine ⟨fun {r} run => ?_, hends.failure⟩
  obtain ⟨hs', hw, hc⟩ := hsp.clone hx run
  exact ⟨h.pages hs' hw.outside rfl rfl, hc⟩

theorem spawn_ends (h : Books E pool s as) (k : List (Instr T)) :
    Ends (· = .outOfHeap) (Proc.spawn E s k) (fun s' => ∃ d, ∃ s₁ : Sys T, s₁.procs = s.procs ∧
      s' = s₁.goto (Proc.publishing d ++ k) ∧ Books E pool s' (.proc d :: as)) := by
  have hcfg : Proc.Adopts E s.kernelRoot s.nextPid .kernel id [] := fun kstack box =>
    ⟨rfl, Proc.newborn_sound _ _ _ _ _ rfl, rfl, rfl⟩
  refine (spawnWith_ends (A := []) h rfl hcfg).bind fun r _ ⟨hs, _, hb⟩ => .ok ?_
  exact ⟨r.1, r.2, hs, rfl, hb.congr rfl rfl rfl rfl rfl⟩

theorem spawnUser_ends (h : Books E pool s
      (.table t (some ⟨Proc.npages E prog, true, userHeapBase⟩) :: as)) (k : List (Instr T)) :
    Ends (· = .outOfHeap) (Proc.spawnUser E s prog t k) (fun s' => ∃ d, ∃ s₁ : Sys T, s₁.procs = s.procs ∧
      s' = s₁.goto (Proc.publishing d ++ k) ∧ Books E pool s' (.proc d :: as)) := by
  have hcfg : Proc.Adopts E s.kernelRoot s.nextPid .userThreadBody (fun p =>
      { Proc.attachUserSpace t userText userStackTop p with image := some prog })
      [.table t (some ⟨Proc.npages E prog, true, userHeapBase⟩)] := by
    have hmax : userHeapBase ≤ userHeapMax := by decide
    intro kstack box
    have hs := Proc.newborn_sound (E := E) .kernel s.kernelRoot s.nextPid kstack box rfl
    exact ⟨rfl, ⟨rfl, nofun, fun _ => nofun, fun _ => ⟨rfl, Nat.le_refl _, hmax⟩, rfl, hs.cursors⟩,
      rfl, rfl⟩
  refine (spawnWith_ends (A := [.table t _]) h rfl hcfg).bind fun r _ ⟨hs, _, hb⟩ => .ok ?_
  exact ⟨r.1, r.2, hs, rfl, hb.congr rfl rfl rfl rfl rfl⟩

/-- The process that `fork` makes. -/
def forkChild (parent : ProcData) (f : TrapFrame) (child b : Nat) (p : ProcData) : ProcData :=
  { Proc.attachUserSpace child f.sepc f.sp p with
    heapBase := parent.heapBase
    heapBrk := parent.heapBrk
    fds := parent.fds
    forkFrame := some (b, f.setA0 0)
    image := parent.image }

theorem forkChild_adopts (hs : Sound E kroot parent) (ht : parent.userTable = some t) (f : TrapFrame) :
    Proc.Adopts E kroot pid .forkretBody (forkChild parent f table b)
      [.table table (some (planOf E parent)), .block ⟨b, Proc.frameSize⟩] := by
  have hne : parent.userTable ≠ none := by
    rw [ht]
    exact nofun
  intro kstack box
  exact ⟨rfl, ⟨rfl, nofun, fun _ => hs.image hne, fun _ => hs.heap hne, rfl, hs.cursors⟩, rfl, rfl⟩

/-- What `fork` has done when its child only waits to be published. -/
structure Bearing (E : Env) (pool : PagePool E.allocStart) (s : Sys T) (as : List Asset) (parent : ProcData)
    (t : Nat) (f : TrapFrame) (d : ProcData) (t' : Nat) (P : Phys) (s' : Sys T) : Prop where
  child : ∃ b kstack box,
    d = forkChild parent f t' b (Proc.newborn .forkretBody s.kernelRoot s.nextPid kstack box)
  cloned : Cloned pool s.phys.mem s.kernelRoot t t'
    (claimed s.phys.mem s.kernelRoot (as.flatMap (Asset.holdings E))) (fun _ _ => True) P
  space : Books E pool { s with phys := P } (.table t' (some (planOf E parent)) :: as)
  work : HeapWork E { s with phys := P, nextPid := s.nextPid + 1 } s'
  books : Books E pool s' (.proc d :: as)

theorem fork_works (h : Books E pool s as) (hc : s.currentProc = some (i, p))
    (hd : .proc p.toProcData ∈ as) (ht : p.userTable = some t) :
    Ends (fun e => e = .outOfHeap ∨
        e = .outOfPages ∧ s.phys.freePages < 1 + 3 * (userFrames s.phys.mem t).length)
      (Proc.fork E s f) (fun s' => ∃ d t' P s₁, Bearing E pool s as p.toProcData t f d t' P s₁ ∧
        s' = s₁.goto (Proc.publishing d ++ [.sysRet f d.pid])) := by
  have hs := h.roll.sound p.toProcData (List.mem_flatMap.mpr ⟨_, hd, List.mem_cons_self⟩)
  have hpt : p.pageTable = t := by
    rw [hs.page, ht]
    rfl
  unfold Proc.fork
  rw [hc]
  dsimp only
  rw [hpt]
  have hclone := h.clone_ends hd ht
  refine Ends.bind ⟨hclone.result, fun he => .inr ?_⟩ fun r _ ⟨hb, hcl⟩ => ?_
  · obtain ⟨hpages, hfew⟩ := hclone.failure he
    exact ⟨hpages, Nat.lt_of_not_le hfew⟩
  obtain ⟨child, P⟩ := r
  refine ((hb.alloc_room_ends (k := 3) (by decide)).weaken fun _ he => .inl he).bind fun r ha ⟨hm, hb'⟩ => ?_
  obtain ⟨b, s₁⟩ := r
  dsimp only at ha hm hb'
  have hroot : s₁.kernelRoot = s.kernelRoot := by rw [hm]
  have hnext : s₁.nextPid = s.nextPid := by rw [hm]
  have hb₁ : Books E pool s₁
      ([.table child (some (planOf E p.toProcData)), .block ⟨b, Proc.frameSize⟩] ++ as) :=
    hb'.perm (.swap _ _ _)
  refine ((hb₁.spawnWith_room_ends rfl (forkChild_adopts (hroot ▸ hs) ht f)).weaken fun _ he => .inl he).bind
    fun r _ ⟨hwork, ⟨kstack, box, he⟩, hb₂⟩ => .ok ⟨r.1, child, P, r.2, ⟨⟨b, kstack, box, ?_⟩, hcl, hb, ?_, hb₂⟩, rfl⟩
  · rw [he, hroot, hnext]
  · have hw : HeapWork E { s with phys := P } s₁ := .alloc hb.owns ha
    have hw₁ : HeapWork E { s with phys := P, nextPid := s.nextPid + 1 }
        { s₁ with nextPid := s₁.nextPid + 1 } := ⟨by rw [hw.only]; rfl, hw.head, hw.count, hw.heap⟩
    exact hw₁.trans hwork

theorem fork_ends (h : Books E pool s as) (hc : s.currentProc = some (i, p))
    (hd : .proc p.toProcData ∈ as) (ht : p.userTable = some t) :
    Ends Lack (Proc.fork E s f) (fun s' => ∃ d, ∃ s₁ : Sys T, s₁.procs = s.procs ∧
      s' = s₁.goto (Proc.publishing d ++ [.sysRet f d.pid]) ∧ Books E pool s' (.proc d :: as)) := by
  refine ((h.fork_works hc hd ht).weaken fun _ he => he.imp_right And.left).mono ?_
  rintro s' ⟨d, _, _, s₁, hb, rfl⟩
  refine ⟨d, s₁, ?_, rfl, hb.books.congr rfl rfl rfl rfl rfl⟩
  rw [hb.work.only]

end Books
end Osmium
