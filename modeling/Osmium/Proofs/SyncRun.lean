import Osmium.Proofs.Channel
import Osmium.Proofs.Start

namespace Osmium
open Lib Control

variable {T : Type} {E : Env} {s s' : Sys T}

/-- What holds after boot, and across every step from a state in which control
is where its code says, holds in every state the kernel reaches. -/
theorem Reachable.invariant {I : Sys T → Prop} (h : Reachable E reserved s)
    (base : ∀ m regs s, kmain E reserved m regs = .ok s → I s)
    (step : ∀ S lvl top s s', Holds S lvl top s → Step E s s' → I s → I s') : I s := by
  induction h with
  | boot m regs run => exact base m regs _ run
  | step reach move ih =>
    obtain ⟨S, lvl, top, hh⟩ := reach.controlled
    exact step S lvl top _ _ hh move ih

namespace Sync

/-- The state `kmain` leaves, as far as semaphores, channels and the console go. -/
structure Untouched (E : Env) (s : Sys T) : Prop where
  sem : s.sem = fun a => ⟨semInit E a, 0, 0⟩
  chan : s.chan = fun _ => ⟨[], [], []⟩
  procs : s.procs = []
  input : s.input = ⟨fun _ => 0, 0, 0⟩
  codes : codes s = [[.boot], []]

theorem boot_untouched (run : kmain E reserved m regs = .ok s) : Untouched E s := by
  simp only [kmain, bind_ok, Except.ok.injEq] at run
  obtain ⟨_, _, _, _, _, _, _, _, _, _, _, _, _, _, rfl⟩ := run
  exact ⟨rfl, rfl, rfl, rfl, rfl⟩

end Sync

/-- What the first code of a thread has, and code keeps as it runs, all threads
have. -/
theorem Reachable.threads {Q : List (Instr T) → Prop} (h : Reachable E reserved s)
    (start : Q Proc.threadEntry) (step : ∀ s c c', Advances E s c c' → Q c → Q c') :
    ∀ j p, s.proc j = some p → Q (codeOf s p) := by
  refine h.invariant (I := fun s => ∀ j p, s.proc j = some p → Q (codeOf s p))
    (fun m regs s run j p hp => ?_) fun S lvl top s s' hh move ih j q' hq => ?_
  · rw [Sys.proc, (Sync.boot_untouched run).procs] at hp
    cases hp
  · rcases step_threads hh move hq with ⟨q, hp, hsame | ⟨_, hcode, hadv⟩⟩ | ⟨_, d, rfl⟩
    · rw [hsame]
      exact ih j q hp
    · rw [← hcode] at hadv
      exact step s _ _ hadv (ih j q hp)
    · exact start

/-- A property of code that the first code has, and that code keeps as it runs. -/
structure Kept (E : Env) (Q : List (Instr T) → Prop) : Prop where
  nil : Q []
  boot : Q [.boot]
  bootCall : ∀ op : Op T, op.early = true → Q (op.code E ++ [.boot])
  bootDone : Q [.schedLoop]
  entry : Q Proc.threadEntry
  away : ∀ j k, Q (.swtchTo j :: k) → Q k
  run : ∀ s c c', Advances E s c c' → Q c → Q c'

namespace Kept

variable {Q : List (Instr T) → Prop}

/-- The code on the hart, the scheduler's, and that of every thread. -/
structure All (Q : List (Instr T) → Prop) (s : Sys T) : Prop where
  hart : Q s.hart.code
  sched : Q s.schedulerCtx.code
  procs : ∀ j p, s.proc j = some p → Q p.context.code

/-- Across one piece of kernel code only what the piece itself leaves on the hart,
saves or drops has to be looked at. -/
theorem All.exec (ha : All Q s) (hcode : s.hart.code = i :: k)
    (run : Osmium.exec E junk s i k = .ok s') (nil : Q []) (entry : Q Proc.threadEntry)
    (away : ∀ j, i = .swtchTo j → Q k) (saved : i = .sched → Q (.setIntena s.hart.intena :: k))
    (front : i.switches = false → Q s'.hart.code) : All Q s' := by
  obtain ⟨hprocs, hsched, hswitch⟩ := exec_contexts hcode run
  refine ⟨?_, ?_, fun j q hq => ?_⟩
  · by_cases hsw : i.switches = true
    · rcases hswitch hsw with hc | ⟨j, q, hq, hc⟩
      · rw [hc]
        exact ha.sched
      · rw [hc]
        exact ha.procs j q hq
    · exact front (Bool.not_eq_true _ ▸ hsw)
  · rcases hsched with hc | hc | ⟨hsw, hc⟩
    · rw [hc]
      exact ha.sched
    · rw [hc]
      exact nil
    · rw [hc]
      cases i with
      | swtchTo j => exact away j rfl
      | sched =>
        obtain ⟨_, l, p, _, _, _, rfl⟩ := Proc.sched_eq run
        rw [← hc]
        exact nil
      | _ => cases hsw
  · rcases hprocs j q hq with hc | hc | ⟨p, hp, hc⟩ | ⟨rfl, hc⟩
    · rw [hc]
      exact nil
    · rw [hc]
      exact entry
    · rw [hc]
      exact ha.procs j p hp
    · rw [hc]
      exact saved rfl

theorem exec (hQ : Kept E Q) (ha : All Q s) (hcode : s.hart.code = i :: k)
    (run : Osmium.exec E junk s i k = .ok s') : All Q s' := by
  have hfront : Q (i :: k) := hcode ▸ ha.hart
  refine ha.exec hcode run hQ.nil hQ.entry ?_ ?_ fun hsw => ?_
  · rintro j rfl
    exact hQ.away j k hfront
  · rintro rfl
    exact hQ.run s _ _ (.run .sched) hfront
  · exact hQ.run s _ _ (.run ((exec_turns hcode run).code hsw)) hfront

theorem step (hQ : Kept E Q) (h : Holds S lvl top s) (ha : All Q s) (move : Step E s s') : All Q s' := by
  obtain ⟨hhart, hsched, hprocs⟩ := ha
  cases move with
  | exec junk code run => exact hQ.exec ⟨hhart, hsched, hprocs⟩ code run
  | call op code =>
    obtain ⟨_, _, rfl⟩ := h.leads code
    rw [code] at hhart
    exact ⟨hQ.run s _ _ (.call op) hhart, hsched, hprocs⟩
  | leave code =>
    obtain ⟨_, _, rfl⟩ := h.leads code
    rw [code] at hhart
    exact ⟨hQ.run s _ _ .leave hhart, hsched, hprocs⟩
  | bootCall op early code =>
    obtain ⟨_, _, rfl⟩ := h.leads code
    exact ⟨hQ.bootCall op early, hsched, hprocs⟩
  | bootDone code => exact ⟨hQ.bootDone, hsched, hprocs⟩
  | interrupt irq on kernel => exact ⟨hQ.run s _ _ (.interrupt irq on) hhart, hsched, hprocs⟩
  | userInterrupt irq code =>
    obtain ⟨_, _, rfl⟩ := h.leads code
    rw [code] at hhart
    exact ⟨hQ.run s _ _ (.userInterrupt irq) hhart, hsched, hprocs⟩
  | userTrap cause stval word code fetched =>
    obtain ⟨_, _, rfl⟩ := h.leads code
    rw [code] at hhart
    exact ⟨hQ.run s _ _ (.userTrap cause stval) hhart, hsched, hprocs⟩
  | userAlu regs pc words code => exact ⟨hhart, hsched, hprocs⟩
  | userStore va pa b code mapped => exact ⟨hhart, hsched, hprocs⟩

theorem reachable (hQ : Kept E Q) (h : Reachable E reserved s) : All Q s := by
  refine h.invariant (I := All Q) (fun m regs s run => ?_) fun _ _ _ _ _ hh move ha => hQ.step hh ha move
  simp only [kmain, bind_ok, Except.ok.injEq] at run
  obtain ⟨_, _, _, _, _, _, _, _, _, _, _, _, _, _, rfl⟩ := run
  refine ⟨hQ.boot, hQ.nil, fun j p hp => ?_⟩
  cases hp

end Kept

namespace Sync

end Sync
end Osmium
