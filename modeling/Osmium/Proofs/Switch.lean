import Osmium.Proofs.Kernelvec

namespace Osmium
open Lib Vm Control Rv64

variable {T : Type} {E : Env} {pool : PagePool E.allocStart} {s s' : Sys T}

namespace Asm

theorem context_slots : Offsets 112 (contextRegs.map contextSlot) := ⟨by decide, by decide, by decide⟩

/-- The `Context` at an address holds these registers. -/
def Filed (m : Mem) (a : Nat) (r : Reg → Word) : Prop :=
  ∀ x ∈ contextRegs, load64 m (a + contextSlot x) = (r x).toNat

theorem Filed.congr (h : Filed m a r) (hs : SameOn m m' a 112) : Filed m' a r := by
  intro x hx
  have hin := context_slots.inside _ (List.mem_map_of_mem hx)
  rw [load64_congr (hs.mono (by omega) (by omega))]
  exact h x hx

/-- The contexts are exchanged: what was in the registers is in `old`, what was in
`new` is in the registers, and no other byte has changed. -/
structure Swapped (r : Reg → Word) (m : Mem) (a b : Nat) (r' : Reg → Word) (m' : Mem) : Prop where
  old : Filed m' a r
  new : Filed m b r'
  rest : ∀ x, x < a ∨ a + 112 ≤ x → m' x = m x

end Asm

/-- What two processes have on the heap lies apart. -/
theorem Sane.blocks_apart (h : Sane E pool lost s) (hp : s.proc i = some p) (hq : s.proc j = some q) (hne : j ≠ i)
    (ha : a ∈ Asset.blocks E (.proc p.toProcData)) (hb : b ∈ Asset.blocks E (.proc q.toProcData)) :
    Apart a.ptr a.size b.ptr b.size := by
  obtain ⟨rest, hperm⟩ := procs_pair hp hq hne
  have hslots := ((hperm.map Process.toProcData).map Asset.proc).flatMap_right (Asset.blocks E)
  have hall := (List.pairwise_append.mp h.ledger.owns.heap.apart).1
  rw [List.flatMap_append] at hall
  have hstock := (List.pairwise_append.mp hall).2.1
  unfold stock slots at hstock
  rw [List.flatMap_append] at hstock
  have hpair := (hslots.pairwise_iff fun hab => Or.symm hab).mp (List.pairwise_append.mp hstock).1
  simp only [List.map_cons, List.flatMap_cons] at hpair
  exact (List.pairwise_append.mp hpair).2.2 a ha b (List.mem_append_left _ hb)

theorem Sane.box_bounds (h : Sane E pool lost s) (hp : s.proc j = some p) :
    E.heapStart ≤ p.box ∧ p.box + E.processSize ≤ E.allocStart :=
  h.block_bounds hp (a := ⟨p.box, E.processSize⟩) (by simp [Asset.blocks])

/-- Where the compiler has put the contexts: the scheduler's among the statics,
the others each in its `Process`. -/
structure Contexts (E : Env) where
  scheduler : Nat
  offset : Nat
  static : E.dataStart ≤ scheduler ∧ scheduler + 112 ≤ E.heapStart ∧ scheduler % 8 = 0
  field : offset + 112 ≤ E.processSize ∧ offset % 8 = 0

/-- The scheduler, or the process in a slot. -/
abbrev Thread := Option Nat

def Contexts.addr (L : Contexts E) (s : Sys T) : Thread → Option Nat
  | none => some L.scheduler
  | some j => (s.proc j).map fun p => p.box + L.offset

/-- The hart runs a thread whose context is used up. -/
def Sys.runs (s : Sys T) : Thread → Bool
  | none => s.schedulerCtx.code.isEmpty
  | some j => (s.proc j).any fun p => p.context.code.isEmpty

/-- The threads of a call of `swtch`. -/
def Sys.swtch (s : Sys T) : Option (Thread × Thread) :=
  match s.hart.code with
  | .sched :: _ => s.current.map fun j => (some j, none)
  | .swtchTo j :: _ => some (none, some j)
  | _ => none

/-- The context a process is created with. -/
def forged (start : Word) (d : ProcData) : Reg → Word
  | .ra => start
  | .sp => BitVec.ofNat 64 d.kstackTop
  | _ => 0

/-- The system, the registers of its hart, and the bytes of its memory. -/
structure Platform (T : Type) where
  sys : Sys T
  regs : Reg → Word
  mem : Mem

/-- Compiled code computes with the registers as it likes, and writes a context
only where it makes a process. The rest is up to `switch.S`. -/
inductive Platform.Step (L : Contexts E) (start : Word) : Platform T → Platform T → Prop where
  | piece {s s' : Sys T} (move : Osmium.Step E s s') (stays : s.swtch = none) (mem : Agrees E s' m')
      (kept : ∀ t a, L.addr s t = some a → L.addr s' t = some a → SameOn m m' a 112)
      (made : ∀ j p, s.proc j = none → s'.proc j = some p →
        Asm.Filed m' (p.box + L.offset) (forged start p.toProcData)) :
      Step L start ⟨s, r, m⟩ ⟨s', r', m'⟩
  | swtch {s s' : Sys T} {P : Binary Reg Asm.Csr Asm.Label} (move : Osmium.Step E s s')
      (between : s.swtch = some (old, new))
      (hold : L.addr s old = some (r .a0).toNat) (hnew : L.addr s new = some (r .a1).toNat)
      (hP : P.mmu = Asm.supervisor s.hart.satp)
      (run : Rv64.Steps P ⟨r, c, m, Asm.swtch⟩ ⟨r', c', m', [.ret]⟩) :
      Step L start ⟨s, r, m⟩ ⟨s', r', m'⟩

/-- The machine as its threads see it: each has callee-saved registers of its own. -/
structure Banks (T : Type) where
  sys : Sys T
  bank : Thread → Reg → Word

/-- A thread's registers change while it runs, and in no other way. -/
inductive Banks.Step (E : Env) (start : Word) : Banks T → Banks T → Prop where
  | piece {s s' : Sys T} (move : Osmium.Step E s s') (stays : s.swtch = none)
      (scheduler : s.runs none = false → g' none = g none)
      (kept : ∀ j p p', s.proc j = some p → s'.proc j = some p' → s.runs (some j) = false → g' (some j) = g (some j))
      (made : ∀ j p, s.proc j = none → s'.proc j = some p → g' (some j) = forged start p.toProcData) :
      Step E start ⟨s, g⟩ ⟨s', g'⟩
  | swtch {s s' : Sys T} (move : Osmium.Step E s s') (between : s.swtch = some ends) :
      Step E start ⟨s, g⟩ ⟨s', g⟩

/-- One set of registers and the contexts in memory stand for the threads' own. -/
structure Banked (L : Contexts E) (d : Platform T) (b : Banks T) : Prop where
  sys : b.sys = d.sys
  mem : Agrees E d.sys d.mem
  live : ∀ t, d.sys.runs t = true → ∀ x ∈ Asm.contextRegs, d.regs x = b.bank t x
  saved : ∀ t a, d.sys.runs t = false → L.addr d.sys t = some a → Asm.Filed d.mem a (b.bank t)

namespace Contexts

variable (L : Contexts E)

theorem addr_some (h : L.addr s (some j) = some a) : ∃ p, s.proc j = some p ∧ a = p.box + L.offset := by
  obtain ⟨p, hp, ha⟩ := Option.map_eq_some_iff.mp h
  exact ⟨p, hp, ha.symm⟩

/-- A context lies in the kernel's data, and is one of doublewords. -/
theorem room (h : Reachable E reserved s) (ha : L.addr s t = some a) :
    E.dataStart ≤ a ∧ a + 112 ≤ E.allocStart ∧ a % 8 = 0 := by
  have hstatic := L.static
  have hfield := L.field
  have hdata : E.dataStart < E.heapStart := E.data.2
  have htop : E.allocStart = E.heapStart + heapSize := rfl
  cases t with
  | none =>
    obtain rfl := Option.some.inj ha
    exact ⟨hstatic.1, by omega, hstatic.2.2⟩
  | some j =>
    obtain ⟨p, hp, rfl⟩ := L.addr_some ha
    obtain ⟨res, lost, _, hs⟩ := reachable_sane h
    have halign := ((reachable_unprivileged h).forks j p hp).record
    have hb := hs.box_bounds hp
    exact ⟨by omega, by omega, by omega⟩

/-- The contexts of two threads lie apart. -/
theorem apart (h : Reachable E reserved s) (ha : L.addr s t = some a) (hb : L.addr s u = some b) (hne : t ≠ u) :
    Apart a 112 b 112 := by
  have hstatic := L.static
  have hfield := L.field
  obtain ⟨res, lost, _, hs⟩ := reachable_sane h
  have below : ∀ {j c}, L.addr s (some j) = some c → L.scheduler + 112 ≤ c := by
    intro j c hc
    obtain ⟨p, hp, rfl⟩ := L.addr_some hc
    have := hs.box_bounds hp
    omega
  cases t with
  | none =>
    obtain rfl := Option.some.inj ha
    cases u with
    | none => exact absurd rfl hne
    | some j => exact .inl (below hb)
  | some i =>
    cases u with
    | none =>
      obtain rfl := Option.some.inj hb
      exact .inr (below ha)
    | some j =>
      obtain ⟨p, hp, rfl⟩ := L.addr_some ha
      obtain ⟨q, hq, rfl⟩ := L.addr_some hb
      have hap := hs.blocks_apart hp hq (fun he => hne (congrArg some he.symm)) (List.mem_cons_of_mem _ List.mem_cons_self)
        (List.mem_cons_of_mem _ List.mem_cons_self)
      unfold Apart at hap ⊢
      dsimp only at hap
      omega

end Contexts

/-- A process keeps its box. -/
theorem Step.box_kept (move : Step E s s') (hp : s.proc j = some p) (hq : s'.proc j = some q) : q.box = p.box := by
  rcases step_heirs move hq with ⟨p', hp', hs | ⟨_, prog, table, rfl⟩⟩ | ⟨hnone, _⟩
  · obtain rfl := Option.some.inj (hp.symm.trans hp')
    exact (congrArg ProcData.box hs :)
  · obtain rfl := Option.some.inj (hp.symm.trans hp')
    rfl
  · rw [hp] at hnone
    cases hnone

/-- Contexts change in calls of `swtch` only; a new process has one from the start. -/
theorem piece_contexts (h : Holds S lvl top s) (move : Step E s s') (stays : s.swtch = none) :
    s'.schedulerCtx.code = s.schedulerCtx.code ∧ ∀ j q', s'.proc j = some q' →
      (∃ q, s.proc j = some q ∧ q'.context.code = q.context.code) ∨
        s.proc j = none ∧ q'.context.code = Proc.threadEntry := by
  cases move with
  | exec junk code run =>
    rename_i i k
    have ht := exec_turns code run
    by_cases hs : i.saves = false
    · have hctx := ht.ctx hs
      exact ⟨hctx.sched, fun j q' hq => .inl (proc_back (hctx.procs j) hq)⟩
    · unfold Sys.swtch at stays
      rw [code] at stays
      cases i with
      | sched =>
        obtain ⟨_, l, p, hat⟩ := h.at_sched code
        rw [hat.current] at stays
        cases stays
      | swtchTo => cases stays
      | publish =>
        obtain ⟨hsched, hprocs⟩ := publish_procs run
        refine ⟨congrArg Context.code hsched, fun j q' hq => ?_⟩
        rcases hprocs j q' hq with hold | ⟨hnone, rfl⟩
        · exact .inl ⟨q', hold, rfl⟩
        · exact .inr ⟨hnone, rfl⟩
      | reap =>
        refine ⟨congrArg Context.code (reap_sched run), fun j q' hq => .inl ⟨q', reap_proc run hq, rfl⟩⟩
      | _ => exact absurd rfl hs
  | _ => exact ⟨rfl, fun j q' hq => .inl ⟨q', hq, rfl⟩⟩

/-- What a call of `swtch` does to the threads. -/
structure Switched (s s' : Sys T) (old new : Thread) : Prop where
  ran : s.runs old = true
  waited : s.runs new = false
  leaves : s'.runs old = false
  runs : s'.runs new = true
  others : ∀ t, t ≠ old → t ≠ new → s'.runs t = s.runs t
  procs : ∀ j, (s'.proc j).map Process.toProcData = (s.proc j).map Process.toProcData
  phys : s'.phys = s.phys

theorem Sys.runs_some (hp : s.proc j = some p) : s.runs (some j) = p.context.code.isEmpty := by
  simp [Sys.runs, hp]

theorem Switched.ne (h : Switched s s' old new) : old ≠ new := by
  rintro rfl
  have hw := h.waited
  rw [h.ran] at hw
  cases hw

theorem Switched.addr (h : Switched s s' old new) (L : Contexts E) (t : Thread) : L.addr s' t = L.addr s t := by
  cases t with
  | none => rfl
  | some j =>
    have hj := congrArg (Option.map fun d => d.box + L.offset) (h.procs j)
    rw [Option.map_map, Option.map_map] at hj
    exact hj

theorem runs_taken (h : Holds S lvl top s) (hr : s.runs (some j) = true) : ∃ p, AtThread s j p := by
  cases hp : s.proc j with
  | none => simp [Sys.runs, hp] at hr
  | some p =>
    rw [Sys.runs_some hp] at hr
    exact ⟨p, (h.taken hp (List.isEmpty_iff.mp hr)).2⟩

/-- One thread runs at a time. -/
theorem runs_unique (h : Holds S lvl top s) (ht : s.runs t = true) (hu : s.runs u = true) : t = u := by
  have alone : ∀ {j}, s.runs (some j) = true → s.runs none = false := by
    intro j hj
    obtain ⟨p, hat⟩ := runs_taken h hj
    obtain ⟨top', hback⟩ := hat.back
    exact List.isEmpty_eq_false_iff.mpr hback.ne_nil
  cases t with
  | none =>
    cases u with
    | none => rfl
    | some j =>
      rw [alone hu] at ht
      cases ht
  | some i =>
    cases u with
    | none =>
      rw [alone ht] at hu
      cases hu
    | some j =>
      obtain ⟨p, hp⟩ := runs_taken h ht
      obtain ⟨q, hq⟩ := runs_taken h hu
      exact hp.current.symm.trans hq.current

variable {L : Contexts E}

namespace Banked

/-- A switch leaves every thread's registers as they are. -/
theorem swtch (hb : Banked L ⟨s, r, m⟩ ⟨s, g⟩) (h : Reachable E reserved s) (hsw : Switched s s' old new)
    (hold : L.addr s old = some a) (hnew : L.addr s new = some b) (hs : Asm.Swapped r m a b r' m') :
    Banked L ⟨s', r', m'⟩ ⟨s', g⟩ := by
  obtain ⟨S, lvl, top, hh⟩ := h.controlled
  have hran : ∀ t, t ≠ old → s.runs t = false := by
    intro t ht
    apply Bool.eq_false_iff.mpr
    intro hr
    exact ht (runs_unique hh hr hsw.ran)
  obtain ⟨hl, hu, _⟩ := L.room h hold
  refine ⟨rfl, (hb.mem.write hl hu hs.rest).congr hsw.phys, fun t ht x hx => ?_, fun t c ht hc => ?_⟩
  · -- only the thread switched to runs, and its registers come from its context
    have htnew : t = new := by
      by_contra hne
      have htold : t ≠ old := by
        rintro rfl
        rw [hsw.leaves] at ht
        cases ht
      rw [hsw.others t htold hne, hran t htold] at ht
      cases ht
    subst htnew
    apply BitVec.eq_of_toNat_eq
    exact (hs.new x hx).symm.trans (hb.saved t b hsw.waited hnew x hx)
  · rw [hsw.addr] at hc
    by_cases htold : t = old
    · subst htold
      obtain rfl := Option.some.inj (hold.symm.trans hc)
      intro x hx
      exact (hs.old x hx).trans (congrArg BitVec.toNat (hb.live t hsw.ran x hx))
    · apply (hb.saved t c (hran t htold) hc).congr
      have hap := L.apart h hold hc (Ne.symm htold)
      intro x h1 h2
      unfold Apart at hap
      exact hs.rest x (by omega)

end Banked

/-- The registers of the threads after a piece of code of the running one. -/
def nextBank (start : Word) (s s' : Sys T) (r' : Reg → Word) (g : Thread → Reg → Word) (t : Thread) : Reg → Word :=
  if s'.runs t then r'
  else match t with
    | none => g none
    | some j =>
      match s.proc j, s'.proc j with
      | none, some p => forged start p.toProcData
      | _, _ => g (some j)

section Piece

variable (hh : Holds S lvl top s) (move : Step E s s') (stays : s.swtch = none)

include hh move stays

theorem piece_runs_none : s'.runs none = s.runs none := by
  unfold Sys.runs
  rw [(piece_contexts hh move stays).1]

theorem piece_runs (hp : s.proc j = some p) (hq : s'.proc j = some q) : s'.runs (some j) = s.runs (some j) := by
  rw [Sys.runs_some hp, Sys.runs_some hq]
  rcases (piece_contexts hh move stays).2 j q hq with ⟨p', hp', he⟩ | ⟨hnone, _⟩
  · obtain rfl := Option.some.inj (hp.symm.trans hp')
    rw [he]
  · rw [hp] at hnone
    cases hnone

theorem piece_made (hp : s.proc j = none) (hq : s'.proc j = some q) : s'.runs (some j) = false := by
  rw [Sys.runs_some hq]
  rcases (piece_contexts hh move stays).2 j q hq with ⟨p', hp', _⟩ | ⟨_, he⟩
  · rw [hp] at hp'
    cases hp'
  · rw [he]
    rfl

theorem nextBank_none (hr : s.runs none = false) : nextBank start s s' r' g none = g none := by
  unfold nextBank
  rw [piece_runs_none hh move stays, hr]
  rfl

theorem nextBank_kept (hp : s.proc j = some p) (hq : s'.proc j = some q) (hr : s.runs (some j) = false) :
    nextBank start s s' r' g (some j) = g (some j) := by
  unfold nextBank
  rw [piece_runs hh move stays hp hq, hr]
  simp [hp]

theorem nextBank_made (hp : s.proc j = none) (hq : s'.proc j = some q) :
    nextBank start s s' r' g (some j) = forged start q.toProcData := by
  unfold nextBank
  rw [piece_made hh move stays hp hq]
  simp [hp, hq]

/-- Other code leaves the saved registers where they are. -/
theorem Banked.piece (hb : Banked L ⟨s, r, m⟩ ⟨s, g⟩) (mem : Agrees E s' m')
    (kept : ∀ t a, L.addr s t = some a → L.addr s' t = some a → SameOn m m' a 112)
    (made : ∀ j p, s.proc j = none → s'.proc j = some p →
      Asm.Filed m' (p.box + L.offset) (forged start p.toProcData)) :
    Banked L ⟨s', r', m'⟩ ⟨s', nextBank start s s' r' g⟩ := by
  refine ⟨rfl, mem, fun t ht x _ => ?_, fun t a ht ha => ?_⟩
  · change r' x = nextBank start s s' r' g t x
    unfold nextBank
    rw [if_pos ht]
  · change Asm.Filed m' a (nextBank start s s' r' g t)
    change s'.runs t = false at ht
    cases t with
    | none =>
      rw [piece_runs_none hh move stays] at ht
      rw [nextBank_none hh move stays ht]
      exact (hb.saved none a ht ha).congr (kept none a ha ha)
    | some j =>
      obtain ⟨q, hq, rfl⟩ := L.addr_some ha
      cases hp : s.proc j with
      | none =>
        rw [nextBank_made hh move stays hp hq]
        exact made j q hp hq
      | some p =>
        rw [piece_runs hh move stays hp hq] at ht
        rw [nextBank_kept hh move stays hp hq ht]
        have hbefore : L.addr s (some j) = some (q.box + L.offset) := by
          rw [move.box_kept hp hq]
          exact congrArg (Option.map _) hp
        exact (hb.saved (some j) _ ht hbefore).congr (kept (some j) _ hbefore ha)

end Piece

/-- The registers of the threads, read off the machine. -/
def Platform.bank (L : Contexts E) (d : Platform T) (t : Thread) : Reg → Word :=
  if d.sys.runs t then d.regs
  else fun x => BitVec.ofNat 64 (load64 d.mem ((L.addr d.sys t).getD 0 + Asm.contextSlot x))

theorem Platform.Step.sys {d d' : Platform T} (step : Platform.Step L start d d') : Osmium.Step E d.sys d'.sys := by
  cases step with
  | piece move => exact move
  | swtch move => exact move

end Osmium
