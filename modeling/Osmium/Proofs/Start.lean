import Osmium.Proofs.Runs
import Osmium.Proofs.Run

namespace Osmium
open Lib Vm

variable {T : Type} {E : Env} {pool : PagePool E.allocStart} {s s' : Sys T} {as : List Asset}
  {spare room few : Nat}

/-- `kmain` before it calls anything: no process was ever picked. -/
structure Waiting (s : Sys T) : Prop where
  code : s.hart.code = [.boot]
  stack : s.hart.stack = .boot
  enabled : s.hart.sie = true
  level : s.hart.noff = 0
  satp : s.hart.satp = s.kernelRoot
  scratch : s.hart.sscratch = 0
  sched : s.schedulerCtx = ⟨[], .boot⟩
  current : s.current = none
  next : s.nextSlot = 0

/-- Memory enough for what the first processes need. -/
structure Ample (E : Env) (s : Sys T) (as : List Asset) (spare room few : Nat) : Prop where
  pages : spare ≤ s.phys.freePages
  bytes : room ≤ s.heap.freeBytes
  blocks : (as.flatMap (Asset.blocks E) ++ fixed s).length ≤ few

/-- The system as `kmain` sets it up around the memory. -/
def booted (E : Env) (P : Phys) (heap : Heap) (root : Nat) (regs : Regs) : Sys T :=
  { phys := P, heap, kernelRoot := root
    procs := [], procsPtr := 0, procsCap := 0
    current := none, nextSlot := 0
    schedulerCtx := ⟨[], .boot⟩
    nextPid := 1, ticks := 0
    input := ⟨fun _ => 0, 0, 0⟩
    sem := fun a => ⟨semInit E a, 0, 0⟩
    chan := fun _ => ⟨[], [], []⟩
    locked := fun _ => false
    boxes := []
    hart :=
      { code := [.boot], stack := .boot
        sie := true, noff := 0, intena := false
        satp := root, sscratch := 0
        regs, pc := 0 } }

theorem kmain_total (E : Env) (hres : Kalloc.reservedRange reserved = .ok res)
    (hrich : 1030 ≤ (Kalloc.seeds E.allocStart res).length) (m : Mem) (regs : Regs) :
    ∃ s : Sys T, kmain E reserved m regs = .ok s ∧ Waiting s ∧ s.procs = [] ∧ s.procsCap = 0 ∧
      s.boxes = [] ∧ s.heap.freeBytes = heapSize ∧
      (Kalloc.seeds E.allocStart res).length ≤ s.phys.freePages + 1027 := by
  obtain ⟨P, hinit, hpool, _⟩ := Kalloc.init_spec E.toLayout hres m
  have hcount := Vm.Pool.count hpool
  rw [Kalloc.seedPool_pages, List.length_nil, Nat.add_zero] at hcount
  obtain ⟨a, P₁, ha⟩ := hpool.alloc_free (by omega)
  obtain ⟨hp₁, hc₁, _⟩ := hpool.alloc_some ha
  obtain ⟨b, P₂, hb⟩ := hp₁.alloc_free (by omega)
  obtain ⟨hp₂, _⟩ := hp₁.alloc_some hb
  obtain ⟨P₃, hfa, hp₃, _⟩ := (hp₂.perm (.swap _ _ _)).free
  obtain ⟨P₄, hfb, hp₄, _⟩ := hp₃.free
  have hrich' : 1030 ≤ (Kalloc.seedPool E.toLayout res).pages.length := by
    rw [Kalloc.seedPool_pages]
    exact hrich
  obtain ⟨root, P₅, hkvm, hleft⟩ := kvmmake_total hp₄ hrich'
  obtain ⟨m', h', hheap, hcar, _⟩ := Heap.Carries.start E.toLayout P₅.mem 0
  rw [Kalloc.seedPool_pages] at hleft
  refine ⟨booted E { P₅ with mem := m' } h' root regs, ?_, ⟨rfl, rfl, rfl, rfl, rfl, rfl, rfl, rfl, rfl⟩, rfl,
    rfl, rfl, hcar.whole.2, hleft⟩
  unfold kmain allocPage
  rw [hinit, ok_bind, ha, ok_bind]
  dsimp only
  rw [ok_bind]
  dsimp only
  rw [hb, ok_bind]
  dsimp only
  rw [ok_bind]
  dsimp only
  rw [hfa, ok_bind, hfb, ok_bind, hkvm, ok_bind]
  dsimp only
  rw [hheap, ok_bind]
  rfl

namespace Books


/-- The heap serves a small request while it has few blocks and much room. -/
theorem alloc_room (h : Books E pool s as) (ha : Ample E s as spare room few) (hk : k ≤ 4)
    (hsize : n ≤ 2 ^ 17) (hfew : few ≤ 30) (hroom : 2 ^ 22 ≤ room) :
    ∃ p s', s.alloc n k = .ok (p, s') ∧ OnlyMem s s' ∧
      Books E pool s' (.block ⟨p, n⟩ :: as) ∧
      Ample E s' (.block ⟨p, n⟩ :: as) spare (room - (n + 96)) (few + 1) := by
  have hpow : 2 ^ k ≤ 16 := Nat.le_trans (Nat.pow_le_pow_right (by decide) hk) (by decide)
  have hfits : n + (2 ^ k - 1) < 2 ^ 63 := by omega
  obtain ⟨p, m', h', run, hkept⟩ := h.owns.heap.alloc_room ⟨n, 2 ^ k, ⟨k, rfl⟩, hfits⟩ hpow (by
    have hfor : Heap.blockFor n ≤ 2 ^ 17 + 31 := by
      unfold Heap.blockFor Heap.header
      omega
    have hlen := ha.blocks
    refine Nat.le_trans (Nat.mul_le_mul hfor (Nat.succ_le_succ (Nat.le_trans hlen hfew))) ?_
    exact Nat.le_trans (by decide) (Nat.le_trans hroom ha.bytes))
  have hrun : s.alloc n k =
      .ok (p, { s with phys := { s.phys with mem := m' }, heap := h' }) := by
    unfold Sys.alloc Heap.request
    rw [dif_pos hfits, ok_bind, run, ok_bind]
  refine ⟨p, _, hrun, .alloc hrun, h.alloc hrun, ha.pages, ?_, ?_⟩
  · have := ha.bytes
    dsimp only at hkept ⊢
    omega
  · have := ha.blocks
    simp only [List.flatMap_cons, Asset.blocks, List.cons_append, List.length_cons]
    exact Nat.succ_le_succ this

end Books

/-- A process as `spawn_user` makes it. -/
structure Spawned (prog : Program) (d : ProcData) : Prop where
  entry : d.entry = .userThreadBody
  start : d.userEntry = userText
  stack : d.userSp = userStackTop
  table : ∃ t, d.userTable = some t ∧ d.pageTable = t
  image : d.image = some prog
  heap : d.heapBase = userHeapBase ∧ d.heapBrk = userHeapBase
  files : d.fds = List.replicate maxFds none

/-- The two allocations behind a freshly loaded space. -/
theorem Books.spawnUser_room (h : Books E pool s
      (.table t (some ⟨Proc.npages E prog, true, userHeapBase⟩) :: as))
    (ha : Ample E s (.table t (some ⟨Proc.npages E prog, true, userHeapBase⟩) :: as) spare room few)
    (hfew : few ≤ 29) (hroom : 2 ^ 22 + 2 ^ 17 ≤ room) (k : List (Instr T)) :
    ∃ d s₁, Proc.spawnUser E s prog t k = .ok (Sys.goto s₁ (Proc.publishing d ++ k)) ∧
      Spawned prog d ∧ s₁ = { s with phys := s₁.phys, heap := s₁.heap, nextPid := s.nextPid + 1 } ∧
      Books E pool s₁ (.proc d :: as) ∧ d.pid = s.nextPid ∧
      Ample E s₁ (.proc d :: as) spare (room - 2 ^ 17) (few + 2) := by
  have hproc := E.processSize_pos
  obtain ⟨kstack, s₁, run₁, hm₁, hb₁, ha₁⟩ := h.alloc_room ha (k := 0) (n := kstackSize)
    (by decide) (by decide) (by omega) (by omega)
  have ha₁' : Ample E { s₁ with nextPid := s₁.nextPid + 1 } _ spare (room - (kstackSize + 96))
    (few + 1) := ⟨ha₁.pages, ha₁.bytes, ha₁.blocks⟩
  obtain ⟨box, s₂, run₂, hm₂, hb₂, ha₂⟩ := hb₁.number.alloc_room ha₁' (k := 3)
    (n := E.processSize) (by decide) (by omega) (by omega) (by unfold kstackSize; omega)
  have hs₂ : s₂ = { s with phys := s₂.phys, heap := s₂.heap, nextPid := s.nextPid + 1 } := by
    rw [hm₂, hm₁]
  have hnext : s₁.nextPid = s.nextPid := by rw [hm₁]
  have hrun : Proc.spawnUser E s prog t k = .ok (Sys.goto s₂ (Proc.publishing
      { Proc.attachUserSpace t userText userStackTop
          (Proc.newborn .userThreadBody s₂.kernelRoot s.nextPid kstack box) with
        image := some prog } ++ k)) := by
    unfold Proc.spawnUser Proc.spawnWith
    rw [run₁, ok_bind]
    dsimp only
    rw [run₂, ok_bind, hnext]
    rfl
  obtain ⟨d, s₃, _, hs₃, hb₃⟩ := (h.spawnUser_ends k).result hrun
  refine ⟨_, s₂, hrun, ⟨rfl, rfl, rfl, ⟨t, rfl, rfl⟩, rfl, ⟨rfl, rfl⟩, rfl⟩, hs₂, ?_, rfl, ha₂.pages, ?_, ?_⟩
  · have hcode := congrArg (fun x : Sys T => x.hart.code) hs₃
    obtain rfl : _ = d := Instr.publish.inj (List.cons.inj (List.cons.inj hcode).2).1
    exact hb₃.congr rfl rfl rfl rfl rfl
  · have := ha₂.bytes
    unfold kstackSize at this
    omega
  · exact ha₂.blocks

/-- A table of processes without holes takes the next one at its end. -/
theorem Books.publish_room (h : Books E pool s (.proc d :: as)) (hr : Roomy s)
    (ha : Ample E s (.proc d :: as) spare room few) (hfew : few ≤ 30) (hroom : 2 ^ 22 ≤ room)
    (hfull : s.procs.findIdx? Option.isNone = none)
    (hcap : s.procs.length < s.procsCap ∧ s.procsCap = 4 ∨ s.procsCap = 0) :
    ∃ s', Proc.publish s d = .ok s' ∧
      s' = { s with
        phys := s'.phys, heap := s'.heap, procsPtr := s'.procsPtr, procsCap := 4
        procs := s.procs ++ [some (Proc.fresh d)] } ∧
      Books E pool s' (.proc d :: as) ∧
      Ample E s' (.proc d :: as) spare (room - 2 ^ 17) (few + 1) := by
  have hgrow : ∃ s₁, Proc.growProcs s = .ok s₁ ∧
      s₁ = { s with phys := s₁.phys, heap := s₁.heap, procsPtr := s₁.procsPtr, procsCap := 4 } ∧
      Ample E s₁ (.proc d :: as) spare (room - 2 ^ 17) (few + 1) := by
    unfold Proc.growProcs
    rcases hcap with ⟨hlt, hcap⟩ | hcap
    · rw [if_pos hlt]
      refine ⟨s, rfl, ?_, ha.pages, ?_, ?_⟩
      · rw [← hcap]
      · have := ha.bytes
        omega
      · exact Nat.le_succ_of_le ha.blocks
    · have hnil : s.procs.length = 0 := by
        unfold Roomy at hr
        omega
      obtain ⟨p, s₁, run, hm, _, ha₁⟩ := h.alloc_room ha (k := 3) (n := 32) (by decide)
        (by decide) hfew hroom
      rw [if_neg (by omega), hnil, hcap]
      dsimp only
      rw [show 8 * max (max (2 * 0) (0 + 1)) 4 = 32 from rfl, run, ok_bind]
      dsimp only
      rw [if_pos rfl, ok_bind]
      refine ⟨_, rfl, ?_, ha₁.pages, ?_, ?_⟩
      · rw [hm]
        rfl
      · have := ha₁.bytes
        dsimp only
        omega
      · have hb := ha₁.blocks
        have hcap₁ : s₁.procsCap = 0 := by rw [hm, hcap]
        unfold fixed at hb ⊢
        rw [if_pos hcap₁] at hb
        simp only [List.flatMap_cons, Asset.blocks, List.cons_append, List.length_cons,
          List.length_append, List.nil_append] at hb ⊢
        rw [if_neg (by decide), List.length_singleton]
        omega
  obtain ⟨s₁, run, hs₁, ha₁⟩ := hgrow
  have hrun : Proc.publish s d = .ok { s₁ with procs := s₁.procs ++ [some (Proc.fresh d)] } := by
    unfold Proc.publish
    rw [hfull]
    dsimp only
    rw [run, ok_bind]
  refine ⟨_, hrun, ?_, (h.publish_ends hr d).result hrun, ha₁.pages, ha₁.bytes, ha₁.blocks⟩
  rw [hs₁]

/-- What a call of `kmain` finds and leaves: the processes so far, in a table
without holes. -/
structure Prepared (E : Env) (pool : PagePool E.allocStart) (s : Sys T) (ds : List ProcData)
    (spare room few : Nat) : Prop where
  waiting : Waiting s
  procs : s.procs = ds.map (fun d => some (Proc.fresh d))
  cap : s.procs.length < s.procsCap ∧ s.procsCap = 4 ∨ s.procsCap = 0
  roomy : Roomy s
  books : Books E pool s (ds.map .proc)
  ample : Ample E s (ds.map .proc) spare room few

/-- `spawn_user` during `kmain`. -/
theorem Prepared.spawn_user (h : Prepared E pool s ds spare room few) (prog : Program)
    (hlen : ds.length < 3) (hspare : 4 + 3 * Proc.npages E prog ≤ spare) (hfew : few ≤ 28)
    (hroom : 2 ^ 22 + 2 ^ 18 ≤ room) :
    ∃ s' d, Relation.ReflTransGen (Step E) s s' ∧ Spawned prog d ∧ d.pid = s.nextPid ∧
      s'.nextPid = s.nextPid + 1 ∧ s'.hart.regs = s.hart.regs ∧ s'.ticks = s.ticks ∧
      Prepared E pool s' (ds ++ [d]) (spare - (4 + 3 * Proc.npages E prog)) (room - 2 ^ 18) (few + 3) := by
  have hcode := h.waiting.code
  have hstep : Step E s (s.goto [.loadImage prog .spawn, .boot]) := .bootCall (.spawnUser prog) rfl hcode
  obtain ⟨t, P, hload, hfill, hfew₁⟩ := Books.load_image (s := s.goto [.loadImage prog .spawn, .boot])
    (h.books.congr rfl rfl rfl rfl rfl) rfl (Nat.le_trans hspare h.ample.pages)
  have ha₁ : Ample E { s with phys := P } (.table t (some ⟨Proc.npages E prog, true, userHeapBase⟩) ::
      ds.map .proc) (spare - (4 + 3 * Proc.npages E prog)) room few := by
    refine ⟨?_, h.ample.bytes, h.ample.blocks⟩
    have := h.ample.pages
    dsimp only [Sys.goto] at hfew₁ ⊢
    omega
  obtain ⟨d, s₂, hspawn, hd, hs₂, hb₂, hpid, ha₂⟩ := Books.spawnUser_room
    (s := Sys.goto { s with phys := P } [.spawnUser prog t, .boot])
    (hfill.books.congr rfl rfl rfl rfl rfl) ⟨ha₁.pages, ha₁.bytes, ha₁.blocks⟩ (by omega) (by omega) [.boot]
  have hh₂ : s₂.hart = { s.hart with code := [.spawnUser prog t, .boot] } := by rw [hs₂]; rfl
  have hprocs₂ : s₂.procs = s.procs := by rw [hs₂]; rfl
  have hcap₂ : s₂.procsCap = s.procsCap := by rw [hs₂]; rfl
  let s₃ : Sys T := Sys.goto { s₂ with hart := Spinlock.pushOff s₂.hart } [.publish d, .popOff, .boot]
  obtain ⟨s₄, hpub, hs₄, hb₄, ha₄⟩ := Books.publish_room (s := s₃) (hb₂.congr rfl rfl rfl rfl rfl)
    (show s₂.procs.length ≤ s₂.procsCap by rw [hprocs₂, hcap₂]; exact h.roomy)
    ⟨ha₂.pages, ha₂.bytes, ha₂.blocks⟩ (by omega) (by omega)
    (show s₂.procs.findIdx? _ = none by rw [hprocs₂, h.procs]; simp)
    (show s₂.procs.length < s₂.procsCap ∧ s₂.procsCap = 4 ∨ s₂.procsCap = 0 by
      rw [hprocs₂, hcap₂]; exact h.cap)
  have hh₃ : s₃.hart = { s.hart with
      code := [.publish d, .popOff, .boot], sie := false, intena := true, noff := 1 } := by
    show ({ Spinlock.pushOff s₂.hart with code := _ } : Hart T) = _
    rw [hh₂]
    unfold Spinlock.pushOff
    dsimp only
    rw [h.waiting.level, h.waiting.enabled]
    rfl
  have hh₄ : s₄.hart = s₃.hart := by rw [hs₄]
  have hpop : Spinlock.popOff (s₄.goto [.popOff, .boot]).hart =
      .ok { s₄.hart with code := [.popOff, .boot], noff := 0, sie := true } := by
    show Spinlock.popOff { s₄.hart with code := [.popOff, .boot] } = _
    rw [hh₄, hh₃]
    rfl
  let s₅ : Sys T := Sys.goto { s₄ with hart := { s₄.hart with noff := 0, sie := true } } [.boot]
  have hpub' : exec E (fun _ => 0) s₃ (.publish d) [.popOff, .boot] = .ok (s₄.goto [.popOff, .boot]) := by
    show (do let s ← Proc.publish s₃ d; Except.ok (s.goto [.popOff, .boot])) = _
    rw [hpub, ok_bind]
  have hpop' : exec E (fun _ => 0) (s₄.goto [.popOff, .boot]) .popOff [.boot] = .ok s₅ := by
    show (do let h ← Spinlock.popOff (s₄.goto [.popOff, .boot]).hart; Except.ok _) = _
    rw [hpop, ok_bind]
    rfl
  have hrun : Runs E (s.goto [.loadImage prog .spawn, .boot]) s₅ :=
    (((hload.tail (.of_exec rfl hspawn)).tail (.of_exec rfl rfl)).tail (.of_exec rfl hpub')).tail
      (.of_exec rfl hpop')
  have hperm : (.proc d :: ds.map Asset.proc).Perm ((ds ++ [d]).map .proc) := by
    rw [List.map_append]
    exact (List.perm_append_singleton _ _).symm
  have hprocs : s₄.procs = s.procs ++ [some (Proc.fresh d)] := by
    rw [hs₄]
    exact congrArg (· ++ _) hprocs₂
  have hcap : s₄.procsCap = 4 := by rw [hs₄]
  have hshort : s₄.procs.length < 4 := by
    rw [hprocs, h.procs, List.length_append, List.length_map]
    exact Nat.succ_lt_succ hlen
  refine ⟨s₅, d, .head hstep hrun.steps, hd, hpid, ?_, ?_, ?_, ⟨⟨rfl, ?_, rfl, rfl, ?_, ?_, ?_, ?_, ?_⟩, ?_, ?_,
    ?_, (hb₄.perm hperm).congr rfl rfl rfl rfl rfl, ha₄.pages, ?_, ?_⟩⟩
  · show s₄.nextPid = _
    rw [hs₄]
    show s₂.nextPid = _
    rw [hs₂]
    rfl
  · show s₄.hart.regs = _
    rw [hh₄, hh₃]
  · show s₄.ticks = _
    rw [hs₄]
    show s₂.ticks = _
    rw [hs₂]
    rfl
  · show s₄.hart.stack = _
    rw [hh₄, hh₃]
    exact h.waiting.stack
  · show s₄.hart.satp = s₄.kernelRoot
    rw [hh₄, hh₃, hs₄]
    show s.hart.satp = s₂.kernelRoot
    rw [hs₂]
    exact h.waiting.satp
  · show s₄.hart.sscratch = _
    rw [hh₄, hh₃]
    exact h.waiting.scratch
  · show s₄.schedulerCtx = _
    rw [hs₄]
    show s₂.schedulerCtx = _
    rw [hs₂]
    exact h.waiting.sched
  · show s₄.current = _
    rw [hs₄]
    show s₂.current = _
    rw [hs₂]
    exact h.waiting.current
  · show s₄.nextSlot = _
    rw [hs₄]
    show s₂.nextSlot = _
    rw [hs₂]
    exact h.waiting.next
  · show s₄.procs = _
    rw [hprocs, h.procs, List.map_append]
    rfl
  · exact .inl ⟨Nat.lt_of_lt_of_eq hshort hcap.symm, hcap⟩
  · exact Nat.le_of_lt (Nat.lt_of_lt_of_eq hshort hcap.symm)
  · refine Nat.le_trans ?_ ha₄.bytes
    rw [Nat.sub_sub]
    exact Nat.le_refl _
  · refine Nat.le_trans (Nat.le_of_eq ?_) ha₄.blocks
    exact ((hperm.flatMap_right _).append_right _).length_eq.symm

/-- Without zombies the reap loop only passes the slots. -/
theorem reap_passes (hz : ∀ j p, s.proc j = some p → p.state ≠ .zombie) (n i : Nat)
    (hn : i + n = s.procs.length) (hcode : s.hart.code = [.reap i]) :
    Runs E s (s.goto [.pick]) := by
  induction n generalizing s i with
  | zero =>
    refine .single (.of_exec hcode ?_)
    show Proc.reapLoop E s i = _
    unfold Proc.reapLoop
    rw [if_neg (by omega)]
  | succ n ih =>
    have hreap : Proc.reap E s i = .ok s := by
      unfold Proc.reap
      cases hp : s.proc i with
      | none => rfl
      | some p =>
        dsimp only
        rw [if_neg (hz i p hp)]
    have hgo : Goes E s (s.goto [.reap (i + 1)]) := by
      refine .of_exec hcode ?_
      show Proc.reapLoop E s i = _
      unfold Proc.reapLoop
      rw [if_pos (by omega), hreap, ok_bind]
    exact .head hgo (ih (s := s.goto [.reap (i + 1)]) hz (i + 1) (by
      show i + 1 + n = s.procs.length
      omega) rfl)

theorem Proc.scan_first (hn : s.nextSlot = 0) (hl : s.procs.length = n + 1)
    (hr : isRunnable s 0 = true) : scan s = some 0 := by
  have hzero : (0 + 0) % (n + 1) = 0 := Nat.zero_mod _
  unfold scan
  dsimp only
  rw [hn, hl, List.range_succ_eq_map, List.map_cons, hzero, List.find?_cons_of_pos hr]

/-- A process that runs its program. -/
def Proc.seated (d : ProcData) : Process T :=
  { d with state := .running, context := ⟨[], .kernel d.kstackTop⟩ }

/-- The hart in U-mode at the first instruction of a program. -/
def Proc.entered (d : ProcData) : Hart T :=
  { code := [.umode], stack := .user
    sie := true, noff := 0, intena := true
    satp := d.pageTable, sscratch := d.kstackTop
    regs := Regs.set (fun _ => 0) .sp userStackTop, pc := userText }

/-- The hart in front of `enter_user`, with the registers of `h`. -/
def Proc.entering (d : ProcData) (h : Hart T) : Hart T :=
  { code := [.enterUser userText userStackTop d.kstackTop], stack := .kernel d.kstackTop
    sie := true, noff := 0, intena := true
    satp := d.pageTable, sscratch := 0
    regs := h.regs, pc := h.pc }

/-- The scheduler's first round: the oldest process is about to enter its program. -/
theorem Prepared.entering (h : Prepared E pool s (d :: ds) spare room few) (hd : Spawned prog d)
    (hroot : d.pageTable ≠ 0) :
    Relation.ReflTransGen (Step E) s { s with
      procs := some (Proc.seated d) :: ds.map (fun d => some (Proc.fresh d))
      current := some 0, nextSlot := 1
      schedulerCtx := ⟨Proc.afterSwitch s, .boot⟩
      hart := Proc.entering d s.hart } := by
  obtain ⟨phys, heap, kroot, procs, ptr, cap, cur, next, sctx, pid, ticks, input, sem, chan, locked,
    boxes, hart⟩ := s
  obtain ⟨code, stack, sie, noff, intena, satp, scratch, regs, pc⟩ := hart
  obtain ⟨number, entry, top, start, sp, root, table, base, brk, fds, frame, kstack, box, image⟩ := d
  obtain rfl : entry = .userThreadBody := hd.entry
  obtain rfl : start = userText := hd.start
  obtain rfl : sp = userStackTop := hd.stack
  obtain ⟨hw, hprocs, -, -, -, -⟩ := h
  obtain rfl : code = [.boot] := hw.code
  obtain rfl : stack = .boot := hw.stack
  obtain rfl : sie = true := hw.enabled
  obtain rfl : noff = 0 := hw.level
  obtain rfl : satp = kroot := hw.satp
  obtain rfl : scratch = 0 := hw.scratch
  obtain rfl : sctx = ⟨[], .boot⟩ := hw.sched
  obtain rfl : cur = none := hw.current
  obtain rfl : next = 0 := hw.next
  obtain rfl : procs = _ := hprocs
  clear hw hd
  generalize hd : (⟨number, .userThreadBody, top, userText, userStackTop, root, table, base, brk, fds, frame,
    kstack, box, image⟩ : ProcData) = d at *
  let idle (hart : Hart T) : Sys T :=
    ⟨phys, heap, satp, (d :: ds).map (fun d => some (Proc.fresh d)), ptr, cap, none, 0, ⟨[], .boot⟩,
      pid, ticks, input, sem, chan, locked, boxes, hart⟩
  have hloop : Runs E (idle ⟨[.schedLoop], .boot, true, 0, intena, satp, 0, regs, pc⟩)
      (idle ⟨[.pick], .boot, false, 1, true, satp, 0, regs, pc⟩) := by
    refine .head (.of_exec rfl rfl) (.head (.of_exec rfl rfl) (.head (.of_exec rfl rfl) ?_))
    refine reap_passes ?_ _ 0 (Nat.zero_add _) rfl
    intro j p hp hz
    have hmem := List.mem_of_getElem? (proc_slot hp)
    obtain ⟨e, _, he⟩ := List.mem_map.mp hmem
    rw [← Option.some.inj he] at hz
    cases hz
  let busy (procs : List (Option (Process T))) (ctx : Context T) (hart : Hart T) : Sys T :=
    ⟨phys, heap, satp, procs, ptr, cap, some 0, 1, ctx,
      pid, ticks, input, sem, chan, locked, boxes, hart⟩
  have hpick : Goes E (idle ⟨[.pick], .boot, false, 1, true, satp, 0, regs, pc⟩)
      (busy (some { Proc.fresh d with state := .running } :: ds.map (fun d => some (Proc.fresh d)))
        ⟨[], .boot⟩ ⟨[.switchTo d.pageTable, .swtchTo 0, .switchTo satp, .clearCurrent, .popOff, .schedLoop],
          .boot, false, 1, true, satp, 0, regs, pc⟩) := by
    refine .of_exec rfl ?_
    have hscan : Proc.scan (idle ⟨[.pick], .boot, false, 1, true, satp, 0, regs, pc⟩) = some 0 :=
      Proc.scan_first rfl (List.length_map _) rfl
    show Proc.pick _ = _
    unfold Proc.pick
    rw [hscan]
    rfl
  have henter : Runs E (busy (some { Proc.fresh d with state := .running } ::
        ds.map (fun d => some (Proc.fresh d)))
        ⟨[], .boot⟩ ⟨[.switchTo d.pageTable, .swtchTo 0, .switchTo satp, .clearCurrent, .popOff, .schedLoop],
          .boot, false, 1, true, satp, 0, regs, pc⟩)
      (busy (some (Proc.seated d) :: ds.map (fun d => some (Proc.fresh d)))
        ⟨[.switchTo satp, .clearCurrent, .popOff, .schedLoop], .boot⟩
        (Proc.entering d ⟨[.boot], .boot, true, 0, intena, satp, 0, regs, pc⟩)) := by
    refine .head (b := busy (some { Proc.fresh d with state := .running } ::
        ds.map (fun d => some (Proc.fresh d))) ⟨[], .boot⟩
        ⟨[.swtchTo 0, .switchTo satp, .clearCurrent, .popOff, .schedLoop],
          .boot, false, 1, true, d.pageTable, 0, regs, pc⟩) (.of_exec rfl ?_) ?_
    · show (do let s ← Proc.switchTo _ d.pageTable; Except.ok (Sys.goto s _)) = _
      unfold Proc.switchTo
      rw [if_neg hroot, ok_bind]
      rfl
    subst hd
    -- `swtch`, `thread_entry`, `user_thread_body`
    iterate 10 refine .head (.of_exec rfl rfl) ?_
    exact .refl
  exact .head (.bootDone rfl) (Runs.steps ((hloop.tail hpick).trans henter))

/-- And enters it. -/
theorem Prepared.enter (h : Prepared E pool s (d :: ds) spare room few) (hd : Spawned prog d)
    (hroot : d.pageTable ≠ 0) :
    Relation.ReflTransGen (Step E) s { s with
      procs := some (Proc.seated d) :: ds.map (fun d => some (Proc.fresh d))
      current := some 0, nextSlot := 1
      schedulerCtx := ⟨Proc.afterSwitch s, .boot⟩
      hart := Proc.entered d } :=
  (h.entering hd hroot).tail (.exec (fun _ => 0) rfl rfl)

theorem Books.pageTable_pos (h : Books E pool s as) (hd : Asset.proc d ∈ as) (hs : Spawned prog d) :
    d.pageTable ≠ 0 := by
  obtain ⟨t, ht, hp⟩ := hs.table
  have hhold : (t, some (planOf E d)) ∈ as.flatMap (Asset.holdings E) :=
    List.mem_flatMap.mpr ⟨_, hd, by simp [Asset.holdings, ht]⟩
  have hclaimed : t ∈ claimed s.phys.mem s.kernelRoot (as.flatMap (Asset.holdings E)) :=
    List.mem_append_right _ (List.mem_flatMap.mpr ⟨_, hhold, root_owned _ _⟩)
  have hpos := pool.pos t (h.owns.spaces.pool.mem hclaimed)
  rw [hp]
  omega

theorem Books.kernelRoot_pos (h : Books E pool s as) : s.kernelRoot ≠ 0 := by
  have hclaimed : s.kernelRoot ∈ claimed s.phys.mem s.kernelRoot (as.flatMap (Asset.holdings E)) :=
    List.mem_append_left _ (root_mem _ _ _ _)
  have hpos := pool.pos _ (h.owns.spaces.pool.mem hclaimed)
  omega

/-- Three words a channel or semaphore, behind the console's. -/
def smallAddr : SemId → Nat
  | .sem n => 0x80230008 + 24 * n
  | .empty channel => 0x80230010 + 24 * channel
  | .full channel => 0x80230018 + 24 * channel

theorem smallAddr_inj (a b : SemId) (h : smallAddr a = smallAddr b) : a = b := by
  cases a <;> cases b <;> dsimp only [smallAddr] at h <;> first | omega | (congr 1; omega)

theorem smallAddr_word (a : SemId) : smallAddr a % 8 = 0 ∧ smallAddr a ≠ 0x80230000 := by
  cases a <;> dsimp only [smallAddr] <;> omega

theorem Fs.init_fit : ∀ f ∈ Fs.init, f.2.length < 2 ^ 63 := by decide +kernel

/-- A build around the image of one megabyte, each program one kilobyte of it. -/
def smallEnv : Env where
  toLayout := smallImage
  image p := (0x80220000 + 1024 * p.ctorIdx, 1024)
  images p := by cases p <;> decide
  image_fits p := by cases p <;> decide
  semAddr := smallAddr
  inputAddr := 0x80230000
  semAddr_inj := smallAddr_inj
  semAddr_word a := (smallAddr_word a).1
  inputAddr_word := rfl
  input_apart a := (smallAddr_word a).2
  initial _ := 0
  capacity _ := 4
  files := Fs.init
  files_fit := Fs.init_fit
  processSize := 400
  processSize_pos := by decide

theorem Kalloc.seedsFrom_all (page n : Nat) : (seedsFrom (0, 0) page n).length = n := by
  induction n generalizing page with
  | zero => rfl
  | succ n ih =>
    rw [seedsFrom, if_pos (.inl (Nat.zero_le _)), List.length_cons, ih]

theorem smallEnv_seeds : (Kalloc.seeds smallEnv.allocStart (0, 0)).length = 29952 := by
  rw [Kalloc.seeds, Kalloc.seedsFrom_all]
  decide

/-- Two processes, the first of them in its program. -/
structure Userland (s : Sys T) (d e : ProcData) : Prop where
  reachable : Reachable smallEnv none s
  first : Spawned .forker d
  second : Spawned .ush e
  procs : s.procs = [some (Proc.seated d), some (Proc.fresh e)]
  current : s.current = some 0
  sched : s.schedulerCtx = ⟨Proc.afterSwitch s, .boot⟩
  hart : s.hart = Proc.entered d
  ample : Ample smallEnv s [.proc d, .proc e] 20000 7000000 6
  books : Books smallEnv (Kalloc.seedPool smallEnv.toLayout (0, 0)) s [.proc d, .proc e]

/-- `kmain` on the one-megabyte image, entered with any registers. -/
theorem prepared (T : Type) (regs : Regs) : ∃ s : Sys T, Reachable smallEnv none s ∧
    s.hart.regs = regs ∧ s.ticks = 0 ∧
    Prepared smallEnv (Kalloc.seedPool smallEnv.toLayout (0, 0)) s [] 28925 heapSize 0 := by
  have hres : Kalloc.reservedRange none = .ok (0, 0) := rfl
  obtain ⟨s, run, hw, hprocs, hcap, hboxes, hbytes, hpages⟩ := kmain_total (T := T) smallEnv hres
    (by rw [smallEnv_seeds]; decide) (fun _ => 0) regs
  rw [smallEnv_seeds] at hpages
  obtain ⟨res, hres', hledger⟩ := boot_ledger run
  obtain rfl := Except.ok.inj (hres.symm.trans hres')
  have hstock : stock smallEnv s = [] := by
    unfold stock slots gather codes
    rw [hprocs, hw.code, hw.sched]
    rfl
  have hfixed : fixed s = [] := by
    unfold fixed
    rw [if_pos hcap, hboxes]
    rfl
  unfold Ledger at hledger
  rw [hstock] at hledger
  refine ⟨s, .boot _ _ run, (boot_fresh run).1, (boot_fresh run).2, hw, hprocs, .inr hcap, ?_, hledger, by omega,
    Nat.le_of_eq hbytes.symm, ?_⟩
  · unfold Roomy
    rw [hprocs]
    exact Nat.zero_le _
  · rw [hfixed]
    exact Nat.le_refl _

theorem userland (T : Type) : ∃ (s : Sys T) (d e : ProcData), Userland s d e := by
  obtain ⟨s, hr, _, _, hstart⟩ := prepared T (fun _ => 0)
  obtain ⟨s₁, d, hsteps₁, hd, _, _, _, _, hp₁⟩ := hstart.spawn_user .forker (by decide) (by decide)
    (by decide) (by decide)
  obtain ⟨s₂, e, hsteps₂, he, _, _, _, _, hp₂⟩ := hp₁.spawn_user .ush (show 1 < 3 by decide)
    (by decide) (by decide) (by decide)
  have hsteps₃ := hp₂.enter hd (hp₂.books.pageTable_pos List.mem_cons_self hd)
  refine ⟨_, d, e, ⟨hr.steps ((hsteps₁.trans hsteps₂).trans hsteps₃), hd, he, rfl,
    rfl, rfl, rfl, ⟨Nat.le_trans ?_ hp₂.ample.pages, Nat.le_trans ?_ hp₂.ample.bytes, hp₂.ample.blocks⟩,
    hp₂.books.congr rfl rfl rfl rfl rfl⟩⟩
  · decide
  · decide

theorem Userland.proc_zero (h : Userland s d e) : s.proc 0 = some (Proc.seated d) := by
  unfold Sys.proc
  rw [h.procs]
  rfl

theorem Userland.proc_one (h : Userland s d e) : s.proc 1 = some (Proc.fresh e) := by
  unfold Sys.proc
  rw [h.procs]
  rfl

end Osmium
