import Osmium.Proofs.Blocking

namespace Osmium
open Lib Control Site Level

variable {T : Type} {E : Env} {pool : PagePool E.allocStart} {s s' : Sys T}

/-- Live payloads lie apart. -/
theorem Heap.Carries.apart (hc : Carries L m h live) :
    live.Pairwise (fun a b => Apart a.ptr a.size b.ptr b.size) := by
  obtain ⟨ts, hp, hl⟩ := hc
  refine hl.pairwise (l := lives ts) ?_ (fun h => h.symm)
  refine List.pairwise_filterMap.mpr (hp.tiles.ordered.imp_of_mem fun {t u} ht hu hlt a ha b hb => ?_)
  obtain ⟨_, h2, _⟩ := hp.header t ht a ha
  obtain ⟨h3, _⟩ := hp.header u hu b hb
  exact .inl (by omega)

/-- No two processes share a byte of their kernel stacks. -/
theorem Sane.stacks_apart (h : Sane E pool lost s) (hp : s.proc i = some p) (hq : s.proc j = some q)
    (hne : j ≠ i) : Apart p.kstack kstackSize q.kstack kstackSize := by
  obtain ⟨L, hperm⟩ := procs_pair hp hq hne
  have hslots : (slots s).Perm (.proc p.toProcData :: .proc q.toProcData ::
      (L.map Process.toProcData).map .proc) := (hperm.map Process.toProcData).map Asset.proc
  have hbooks := Books.perm h.ledger (((hslots.append_right _).append_left _).trans List.perm_append_comm)
  refine (List.pairwise_cons.mp hbooks.owns.heap.apart).1 ⟨q.kstack, kstackSize⟩ ?_
  exact List.mem_append_left _ (List.mem_append_right _ List.mem_cons_self)

/-- Where `kernelvec` builds the frame of a trap from U-mode. -/
def Trap.frameAddr (h : Hart T) : Nat := h.sscratch - 272

/-- Off U-mode `sscratch` says so. -/
theorem Control.Holds.unarmed (h : Holds S lvl top s) (hstack : s.hart.stack ≠ .user) :
    s.hart.sscratch = 0 := by
  obtain ⟨_, _, hplace, _⟩ := h
  cases S with
  | thread | moving =>
    obtain ⟨_, _, _, _, ⟨_, _, h3⟩, _⟩ := hplace
    exact h3
  | parted =>
    obtain ⟨_, _, _, _, _, ⟨_, _, h3⟩, _⟩ := hplace
    exact h3
  | user =>
    obtain ⟨_, _, _, _, _, h2, _⟩ := hplace
    exact absurd h2 hstack
  | _ => exact hplace.1.scratch

/-- In U-mode it holds the top of the current process's kernel stack. -/
theorem Control.Holds.armed (h : Holds S lvl top s) (hstack : s.hart.stack = .user) :
    ∃ i p, s.current = some i ∧ s.proc i = some p ∧ p.context.code = [] ∧
      s.hart.sscratch = p.kstackTop := by
  obtain ⟨rfl, _⟩ := h.on_user hstack
  obtain ⟨i, p, hat, _, htop, _, hscratch, _⟩ := h.place
  exact ⟨i, p, hat.current, hat.here, hat.empty, hscratch.trans htop.symm⟩

/-- A program is interrupted, or faults on a page that the kernel then maps. -/
inductive Interrupted (E : Env) (s : Sys T) : Sys T → Prop where
  | irq (irq : Irq) :
      Interrupted E s (Trap.fromUser s (irq.code E ++ [.trapRet (Trap.frameOf s.hart)]))
  | fault (cause : code = 13 ∨ code = 15) (word : stval < 2 ^ 64)
      (run : exec E junk (s.trapped code stval) (.kerneltrap (Trap.frameOf s.hart) code stval) [] = .ok s₁)
      (served : s₁.hart.code ≠ [.exit]) : Interrupted E s s₁

/-- The way back, with interrupts off. -/
theorem trapRet_forms (E : Env) (s : Sys T) (f : TrapFrame) :
    Forms E s (· = [.trapRet f]) fun c _ => c = [.trapRet f] := by
  refine ⟨(fun h => by cases h), fun i k h => ?_, (fun b h => by cases h), fun i k c h _ => .inr h⟩
  cases h
  exact ⟨rfl, fun hn => by cases hn⟩

/-- The thread goes back to U-mode with what the frame holds, whenever it does. -/
theorem trapRet_returns (hr : Reachable E reserved s₀) (hp₀ : s₀.proc l = some p₀)
    (ho : Over (· = [.trapRet f]) (codeOf s₀ p₀)) (busy : Busy E l (· = [.umode]) s₀ s)
    (move : Step E s s') (hp : s'.proc l = some p) (hback : codeOf s' p = [.umode]) :
    s'.current = some l ∧ s'.hart.stack = .user ∧ s'.hart.regs = f.regs ∧ s'.hart.pc = f.sepc := by
  refine busy.returns (I := fun s => ∃ p, s.proc l = some p ∧ Over (· = [.trapRet f]) (codeOf s p))
    (Q := fun s' => s'.current = some l ∧ s'.hart.stack = .user ∧ s'.hart.regs = f.regs ∧
      s'.hart.pc = f.sepc) hr ⟨p₀, hp₀, ho⟩
    (fun S lvl top s s' _ _ h move hI => ?_) (fun s p hI hp hb => ?_) move hp hback
  · obtain ⟨p, hp, ho⟩ := hI
    obtain ⟨p', hp', ho' | ⟨hcur, _, hcode⟩⟩ := ho.step h (trapRet_forms E s f) hp move
    · exact .inl ⟨p', hp', ho'⟩
    · obtain ⟨rfl, rfl, _⟩ := h.leads hcode
      obtain ⟨q, hq, hempty⟩ := h.place.caller hcur
      obtain ⟨junk, run⟩ := move.quiet hcode h.reads.2 rfl
      obtain rfl := Except.ok.inj run
      exact .inr ⟨q, hq, codeOf_hart hempty, hcur, rfl, (restore_all f _).1, rfl⟩
  · obtain ⟨q, hq, ho⟩ := hI
    obtain rfl := Option.some.inj (hq.symm.trans hp)
    rw [hb] at ho
    rcases ho.head with hx | hx <;> cases hx

/-- Both kinds of interruption leave the frame, and nothing else, to come back to. -/
theorem Interrupted.over (h : Interrupted E s s₁) (hp : s.proc l = some p) (hempty : p.context.code = []) :
    ∃ p₁, s₁.proc l = some p₁ ∧ Over (· = [.trapRet (Trap.frameOf s.hart)]) (codeOf s₁ p₁) := by
  cases h with
  | irq irq =>
    refine ⟨p, hp, irq.code E, _, ?_, irq_passing E irq, rfl⟩
    exact codeOf_hart hempty
  | fault cause word run served =>
    have hturn := exec_turns (k := []) rfl run
    obtain ⟨p₁, hp₁, hctx⟩ := proc_back ((hturn.ctx rfl).procs l).symm hp
    refine ⟨p₁, hp₁, .base ?_⟩
    rw [codeOf_hart (by rw [← hctx]; exact hempty)]
    have hfollow := hturn.code rfl
    generalize s₁.hart.code = c at hfollow served
    cases hfollow with
    | trapServed => rfl
    | trapKill => exact absurd rfl served
    | trapBreak | trapCall => omega
    | plain acts | idle acts | drop acts => cases acts

theorem Interrupted.reachable (h : Interrupted E s s₁) (hr : Reachable E reserved s)
    (hcode : s.hart.code = [.umode]) : Reachable E reserved s₁ := by
  cases h with
  | irq irq => exact hr.step (.userInterrupt irq hcode)
  | fault cause word run served =>
    exact (hr.step (.userTrap _ _ word hcode (fun hc => by omega))).step (.exec _ rfl run)

/-- The `sscratch` protocol, and what it is for: a trap from U-mode lands on the
current process's own stack, and a program that is interrupted, or faults on a
page the kernel maps, goes on as if nothing had happened. -/
theorem trap_transparent (h : Reachable E reserved s) :
    (s.hart.stack ≠ .user → s.hart.sscratch = 0) ∧
    (s.hart.stack = .user → ∃ l p, s.current = some l ∧ s.proc l = some p ∧
      s.hart.sscratch = p.kstackTop ∧ Trap.frameAddr s.hart = p.kstackTop - 272 ∧
      p.kstack + 272 ≤ p.kstackTop ∧ p.kstackTop ≤ p.kstack + kstackSize) ∧
    (∀ i j p q, s.proc i = some p → s.proc j = some q → j ≠ i →
      Apart p.kstack kstackSize q.kstack kstackSize) ∧
    ∀ l s₁ s₂ s₃ p, s.hart.stack = .user → s.current = some l → Interrupted E s s₁ →
      Busy E l (· = [.umode]) s₁ s₂ → Step E s₂ s₃ → s₃.proc l = some p → codeOf s₃ p = [.umode] →
      s₃.current = some l ∧ s₃.hart.stack = .user ∧ s₃.hart.regs = s.hart.regs ∧ s₃.hart.pc = s.hart.pc := by
  obtain ⟨res, lost, _, hs⟩ := reachable_sane h
  obtain ⟨S, lvl, top, hh⟩ := hs.control
  refine ⟨hh.unarmed, fun hu => ?_, fun i j p q hp hq hne => hs.stacks_apart hp hq hne, ?_⟩
  · obtain ⟨l, p, hcur, hp, _, harmed⟩ := hh.armed hu
    have htop : p.kstackTop = (p.kstack + 16384) / 16 * 16 := (hs.sound hp).top
    refine ⟨l, p, hcur, hp, harmed, congrArg (· - 272) harmed, by omega, ?_⟩
    show _ ≤ p.kstack + 16384
    omega
  · intro l s₁ s₂ s₃ p hu hcur hint busy move hp hback
    obtain ⟨i, q, hcur', hq, hempty, _⟩ := hh.armed hu
    obtain rfl := Option.some.inj (hcur'.symm.trans hcur)
    obtain ⟨p₁, hp₁, ho⟩ := hint.over hq hempty
    exact trapRet_returns (hint.reachable h (hh.on_user hu).2) hp₁ ho busy move hp hback

/-- The only process, back from an interrupt that brought no byte. -/
theorem trap_transparent_lone : ∃ s s₁ s₃ : Sys Nat, Reachable smallEnv none s ∧ s.hart.stack = .user ∧
    Interrupted smallEnv s s₁ ∧ Step smallEnv s₁ s₃ ∧ s₃.hart.stack = .user ∧
    s₃.hart.regs = s.hart.regs ∧ s₃.hart.pc = s.hart.pc := by
  obtain ⟨s, d, h⟩ := lone Nat
  have hstack : s.hart.stack = .user := by
    rw [h.hart]
    rfl
  obtain ⟨t, hin⟩ := h.inside
  have hp := (Sys.currentProc_eq hin.caller).2
  have hirq : Interrupted smallEnv s _ := .irq (.uart [])
  have hback : Step smallEnv _ _ := .exec (fun _ => 0) rfl (rfl : exec smallEnv (fun _ => 0)
    (Trap.fromUser s [.trapRet (Trap.frameOf s.hart)]) (.trapRet (Trap.frameOf s.hart)) [] = _)
  obtain ⟨_, hu, hregs, hpc⟩ := (trap_transparent h.reachable).2.2.2 0 _ _ _ _ hstack h.current hirq
    .start hback hp rfl
  exact ⟨s, _, _, h.reachable, hstack, hirq, hback, hu, hregs, hpc⟩

end Osmium
