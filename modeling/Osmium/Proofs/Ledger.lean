import Mathlib.Algebra.Order.Group.Multiset
import Mathlib.Tactic.Abel
import Osmium.Proofs.Copy
import Osmium.Proofs.Thread

namespace Osmium
open Lib Vm Control

variable {T : Type}

/-- What a slot of the process table or a piece of code owns. -/
inductive Asset where
  | proc (d : ProcData)
  | table (root : Nat) (plan : Option Plan)
  | block (a : Heap.Live)

/-- How a process's space is meant to look. -/
def planOf (E : Env) (d : ProcData) : Plan := ⟨d.image.elim 0 (Proc.npages E), true, d.heapBrk⟩

namespace Asset

def holdings (E : Env) : Asset → List Holding
  | .proc d => (d.userTable.map (fun t => (t, some (planOf E d)))).toList
  | .table t plan => [(t, plan)]
  | .block _ => []

def blocks (E : Env) : Asset → List Heap.Live
  | .proc d => ⟨d.kstack, kstackSize⟩ :: ⟨d.box, E.processSize⟩ ::
      (d.forkFrame.map (fun f => ⟨f.1, Proc.frameSize⟩)).toList
  | .table .. => []
  | .block a => [a]

def datas : Asset → List ProcData
  | .proc d => [d]
  | _ => []

end Asset

/-- Bytes of a file. -/
def Fs.size (E : Env) (idx : Nat) : Nat := ((E.files[idx]?).map (fun f => f.2.length)).getD 0

/-- What holds of every process's own fields. -/
structure Sound (E : Env) (kroot : Nat) (d : ProcData) : Prop where
  page : d.pageTable = d.userTable.getD kroot
  seat : d.userTable = none → d.entry = .kernel
  image : d.userTable ≠ none → d.image ≠ none
  heap : d.userTable ≠ none →
    d.heapBase = userHeapBase ∧ userHeapBase ≤ d.heapBrk ∧ d.heapBrk ≤ userHeapMax
  top : d.kstackTop = (d.kstack + kstackSize) / 16 * 16
  cursors : ∀ e, some e ∈ d.fds → e.offset ≤ Fs.size E e.fileIdx

/-- Pids in use are distinct and older than the next one. -/
structure Enrolled (E : Env) (kroot next : Nat) (ds : List ProcData) : Prop where
  start : 0 < next
  sound : ∀ d ∈ ds, Sound E kroot d
  pids : ∀ d ∈ ds, 0 < d.pid ∧ d.pid < next
  distinct : (ds.map ProcData.pid).Nodup

theorem Enrolled.perm (h : Enrolled E kroot next ds) (hp : ds.Perm ds') :
    Enrolled E kroot next ds' where
  start := h.start
  sound d hd := h.sound d (hp.mem_iff.mpr hd)
  pids d hd := h.pids d (hp.mem_iff.mpr hd)
  distinct := (hp.map _).nodup_iff.mp h.distinct

/-- Blocks that belong to no process: the process table's and those of kernel
threads. -/
def fixed (s : Sys T) : List Heap.Live :=
  (if s.procsCap = 0 then [] else [⟨s.procsPtr, 8 * s.procsCap⟩]) ++ s.boxes

/-- The assets account for every page and every block. -/
structure Books (E : Env) (pool : PagePool E.allocStart) (s : Sys T) (as : List Asset) : Prop where
  owns : Owns pool s (as.flatMap (Asset.holdings E)) (as.flatMap (Asset.blocks E) ++ fixed s)
  roll : Enrolled E s.kernelRoot s.nextPid (as.flatMap Asset.datas)

namespace Books

variable {E : Env} {pool : PagePool E.allocStart} {s s' : Sys T} {as as' : List Asset}

theorem perm (h : Books E pool s as) (hp : as.Perm as') : Books E pool s as' where
  owns := h.owns.perm (hp.flatMap_right _) ((hp.flatMap_right _).append_right _)
  roll := h.roll.perm (hp.flatMap_right _)

/-- Some assets give way to others that come to the same. -/
theorem trade (h : Books E pool s (A ++ as))
    (hh : (A.flatMap (Asset.holdings E)).Perm (B.flatMap (Asset.holdings E)))
    (hb : (A.flatMap (Asset.blocks E)).Perm (B.flatMap (Asset.blocks E)))
    (hr : Enrolled E s.kernelRoot s.nextPid (B.flatMap Asset.datas ++ as.flatMap Asset.datas)) :
    Books E pool s (B ++ as) where
  owns := by
    have ho := h.owns
    rw [List.flatMap_append, List.flatMap_append] at ho ⊢
    exact ho.perm (hh.append_right _) ((hb.append_right _).append_right _)
  roll := by
    rw [List.flatMap_append]
    exact hr

/-- Memory and register are the same in another state. -/
theorem congr (h : Books E pool s as) (hk : s'.kernelRoot = s.kernelRoot) (hp : s'.phys = s.phys)
    (hh : s'.heap = s.heap) (hn : s'.nextPid = s.nextPid) (hf : fixed s' = fixed s) :
    Books E pool s' as where
  owns := by
    unfold Owns
    rw [hk, hp, hh, hf]
    exact h.owns
  roll := by
    rw [hk, hn]
    exact h.roll

theorem only_mem (h : Books E pool s as) (hm : OnlyMem s s')
    (ho : Owns pool s' (as'.flatMap (Asset.holdings E)) (as'.flatMap (Asset.blocks E) ++ fixed s))
    (hd : as'.flatMap Asset.datas = as.flatMap Asset.datas) : Books E pool s' as' where
  owns := by
    have hf : fixed s' = fixed s := by rw [hm]; rfl
    rw [hf]
    exact ho
  roll := by
    rw [hd, hm]
    exact h.roll

theorem alloc (h : Books E pool s as) (run : s.alloc size k = .ok (p, s')) :
    Books E pool s' (.block ⟨p, size⟩ :: as) :=
  h.only_mem (.alloc run) (h.owns.alloc run).1 rfl

theorem dealloc (h : Books E pool s (.block a :: as)) (run : s.dealloc a.ptr = .ok s') :
    Books E pool s' as :=
  h.only_mem (.dealloc run) (h.owns.dealloc run).1 rfl

theorem dealloc_total (h : Books E pool s (.block a :: as)) : ∃ s', s.dealloc a.ptr = .ok s' :=
  h.owns.dealloc_total

/-- Work on pages alone. -/
theorem pages (h : Books E pool s as) (hsp : Spaces pool P s.kernelRoot (as'.flatMap (Asset.holdings E)))
    (hw : WritesIn s.phys.mem P.mem pool.pages)
    (hb : as'.flatMap (Asset.blocks E) = as.flatMap (Asset.blocks E))
    (hd : as'.flatMap Asset.datas = as.flatMap Asset.datas) :
    Books E pool { s with phys := P } as' :=
  h.only_mem (.phys s P) (by rw [hb]; exact h.owns.pages hsp hw) hd

theorem make (h : Books E pool s as) (run : makeUserTable s.phys s.kernelRoot = .ok (t, P)) :
    Books E pool { s with phys := P } (.table t (some .empty) :: as) := by
  obtain ⟨hsp, hw⟩ := h.owns.spaces.make run
  exact h.pages hsp hw.outside rfl rfl

theorem free (h : Books E pool s (.table t o :: as)) :
    ∃ P, Proc.freeTable E s t = .ok { s with phys := P } ∧ Books E pool { s with phys := P } as ∧
      Spared pool s.kernelRoot (as.flatMap (Asset.holdings E)) s.phys.mem P.mem := by
  obtain ⟨P, hr, hsp, hw⟩ := Spaces.free h.owns.spaces
  refine ⟨P, ?_, h.pages hsp hw.outside rfl rfl, hw⟩
  unfold Proc.freeTable
  rw [hr]
  rfl

end Books

/-- What the code behind a piece has in its hands until the piece is run. -/
def carried (E : Env) : Instr T → List Asset
  | .loadText prog t i _ => [.table t (some ⟨min i (Proc.npages E prog), false, userHeapBase⟩)]
  | .loadStack prog t _ => [.table t (some ⟨Proc.npages E prog, false, userHeapBase⟩)]
  | .spawnUser prog t | .execCommit prog t =>
    [.table t (some ⟨Proc.npages E prog, true, userHeapBase⟩)]
  | .publish d => [.proc d]
  | .freeUserTable t => [.table t none]
  | .getcharLoop (.user _ _ cap buf) | .getcharCheck (.user _ _ cap buf)
  | .gotChar (.user _ _ cap buf) _ => [.block ⟨buf, cap⟩]
  | _ => []

/-- The processes in their slots. -/
def slots (s : Sys T) : List Asset := (s.procs.reduceOption.map Process.toProcData).map .proc

/-- Everything somebody still answers for. -/
def stock (E : Env) (s : Sys T) : List Asset := slots s ++ gather (carried E) s

/-- The books balance, but for blocks that were lost for good. -/
def Ledger (E : Env) (pool : PagePool E.allocStart) (lost : List Heap.Live) (s : Sys T) : Prop :=
  Books E pool s (lost.map .block ++ stock E s)

theorem carried_nil (E : Env) {x : Instr T} (h : x.load ≠ .space) : carried E x = [] := by
  cases x with
  | getcharLoop r | getcharCheck r =>
    cases r with
    | kernel => rfl
    | user => exact absurd rfl h
  | gotChar r _ =>
    cases r with
    | kernel => rfl
    | user => exact absurd rfl h
  | loadText | loadStack | spawnUser | execCommit | publish | freeUserTable => exact absurd rfl h
  | _ => rfl

theorem carried_null (E : Env) (hκ : κ ≠ .space) : Null (T := T) κ (carried E) := by
  intro x hx
  refine carried_nil E (fun h => ?_)
  rw [h] at hx
  rcases hx with hx | hx
  · cases hx
  · exact hκ hx.symm

theorem slots_congr {s s' : Sys T}
    (h : ∀ j, (s'.proc j).map Process.toProcData = (s.proc j).map Process.toProcData) :
    slots s' = slots s := by
  unfold slots
  rw [reduceOption_congr Process.toProcData h]

/-- One process changes, the others stay. -/
theorem slots_change {s s' : Sys T} (hp : s.proc i = some p) (hp' : s'.proc i = some p')
    (ho : ∀ j, j ≠ i → s'.proc j = s.proc j) :
    ∃ L, (slots s).Perm (.proc p.toProcData :: L) ∧ (slots s').Perm (.proc p'.toProcData :: L) := by
  obtain ⟨L, h1, h2, _⟩ := procs_split hp
  have he : slots s' = slots (s.setProc i (fun _ => p')) := by
    refine slots_congr (fun j => ?_)
    rw [Sys.proc_setProc]
    split
    · rename_i hj
      rw [hj, hp, hp']
      rfl
    · rename_i hj
      rw [ho j hj]
  refine ⟨(L.map Process.toProcData).map .proc, (h1.map _).map _, ?_⟩
  rw [he]
  exact ((h2 (fun _ => p')).map Process.toProcData).map Asset.proc

namespace Ledger

variable {E : Env} {pool : PagePool E.allocStart} {s s' : Sys T}

theorem of_perm (hs : (stock E s').Perm (stock E s)) (h : Books E pool s' (lost.map .block ++ stock E s)) :
    Ledger E pool lost s' := h.perm (hs.symm.append_left _)

/-- A piece of code that has nothing to do with pages, blocks or processes. -/
theorem inert (h : Ledger E pool lost s) (he : Emits E i k s s') (hκ : i.kind ≠ .space) :
    Ledger E pool lost s' := by
  have hm := he.memory hκ
  have hf : fixed s' = fixed s := by
    unfold fixed
    rw [hm.procsCap, hm.procsPtr, hm.boxes]
  refine of_perm ?_ (Books.congr h he.root hm.phys hm.heap hm.nextPid hf)
  unfold stock
  rw [slots_congr hm.data]
  exact (he.flow (carried_null E hκ)).append_left _

/-- A piece of code that trades what it has in its hands, and some processes, for
others. `R` is what it does not touch. -/
theorem piece (h : Ledger E pool lost s) (hctx : SameCtx s s') (hc : s.hart.code = i :: k)
    (hA : (slots s).Perm (A ++ L)) :
    ∃ R, Books E pool s (carried E i ++ (A ++ R)) ∧
      ∀ new A' leak, s'.hart.code = new ++ k → (slots s').Perm (A' ++ L) →
        Books E pool s' (leak.map .block ++ (new.flatMap (carried E) ++ (A' ++ R))) →
        Ledger E pool (leak ++ lost) s' := by
  obtain ⟨rest, h1, h2⟩ := hctx.gather (carried E)
  rw [hc, List.flatMap_cons] at h1
  rw [← Multiset.coe_eq_coe, ← Multiset.coe_add] at hA
  refine ⟨lost.map .block ++ (L ++ (k.flatMap (carried E) ++ rest)), Books.perm h ?_,
    fun new A' leak hc' hA' hb => hb.perm ?_⟩
  · unfold stock
    rw [h1, ← Multiset.coe_eq_coe]
    simp only [← Multiset.coe_add, hA]
    abel
  · rw [hc', List.flatMap_append] at h2
    rw [← Multiset.coe_eq_coe, ← Multiset.coe_add] at hA'
    unfold stock
    rw [h2, List.map_append, ← Multiset.coe_eq_coe]
    simp only [← Multiset.coe_add, hA']
    abel

/-- A piece of code that leaves the processes alone. -/
theorem trade (h : Ledger E pool lost s) (hctx : SameCtx s s') (hc : s.hart.code = i :: k)
    (hd : ∀ j, (s'.proc j).map Process.toProcData = (s.proc j).map Process.toProcData)
    (hc' : s'.hart.code = c ++ k)
    (step : ∀ R, Books E pool s (carried E i ++ R) → Books E pool s' (c.flatMap (carried E) ++ R)) :
    Ledger E pool lost s' := by
  obtain ⟨R, hb, close⟩ := h.piece (A := []) (L := slots s) hctx hc (.refl _)
  refine close c [] [] hc' ?_ (step R hb)
  rw [slots_congr hd]
  exact .refl _

end Ledger
end Osmium
