import Osmium.Proofs.Footprint
import Osmium.Proofs.Startup
import Osmium.Proofs.Transparency

namespace Osmium
open Lib Vm Control Syscall

variable {T : Type} {E : Env} {pool : PagePool E.allocStart} {s s₁ s' : Sys T} {as R : List Asset}

/-- The pieces that can change the space of the process they run for. -/
def Instr.touches : Instr T → Bool
  | .umode | .kerneltrap .. | .gotChar (.user ..) _ | .execCommit .. => true
  | _ => false

/-- The process `p` of slot `j` keeps its data, and its table shows the same bytes
under the same permissions. -/
structure Undisturbed (j : Nat) (p : Process T) (s s' : Sys T) : Prop where
  data : (s'.proc j).map Process.toProcData = some p.toProcData
  space : ∀ t, p.userTable = some t → SameSpace s s' t

theorem Proc.box_procs (run : Proc.box s size k = .ok s') : s'.procs = s.procs := by
  unfold Proc.box at run
  split at run
  · obtain rfl := Except.ok.inj run
    rfl
  · simp only [bind_ok, Except.ok.injEq] at run
    obtain ⟨⟨p, s₁⟩, ha, rfl⟩ := run
    exact (congrArg Sys.procs (OnlyMem.alloc ha) :)

theorem Proc.unbox_procs (run : Proc.unbox s n = .ok s') : s'.procs = s.procs := by
  unfold Proc.unbox at run
  split at run
  · obtain rfl := Except.ok.inj run
    rfl
  · simp only [bind_ok, Except.ok.injEq] at run
    obtain ⟨s₁, hd, rfl⟩ := run
    exact (congrArg Sys.procs (OnlyMem.dealloc hd) :)

theorem proc_of_procs (h : s'.procs = s.procs) (j : Nat) : s'.proc j = s.proc j := by
  unfold Sys.proc
  rw [h]

/-- The reap loop passes over whoever is still there afterwards. -/
theorem Proc.reapLoop_proc (run : Proc.reapLoop E s n = .ok s') (lives : s'.proc j ≠ none) :
    s'.proc j = s.proc j := by
  unfold Proc.reapLoop at run
  split at run
  next hn =>
    simp only [bind_ok, Except.ok.injEq] at run
    obtain ⟨s₁, hr, rfl⟩ := run
    rcases Proc.reap_eq hr with ⟨rfl, _⟩ | ⟨q, _, s₂, hq, _, _, _, hm, rfl⟩
    · rfl
    · have hproc : ∀ l, ({ s₂ with procs := s.procs.set n none } : Sys T).proc l =
          if l = n then none else s.proc l := fun l => Proc.proc_set _ _ _ _ hn
      refine (hproc j).trans (if_neg ?_)
      rintro rfl
      exact lives ((hproc j).trans (if_pos rfl))
  · obtain rfl := Except.ok.inj run
    rfl

/-- A live process is not reaped. -/
theorem Proc.reapLoop_alive (run : Proc.reapLoop E s j = .ok s') (hp : s.proc j = some p)
    (lives : s'.proc j ≠ none) : s'.phys = s.phys := by
  unfold Proc.reapLoop at run
  split at run
  next hn =>
    simp only [bind_ok, Except.ok.injEq] at run
    obtain ⟨s₁, hr, rfl⟩ := run
    rcases Proc.reap_eq hr with ⟨rfl, _⟩ | ⟨q, _, s₂, _, _, _, _, _, rfl⟩
    · rfl
    · exact absurd ((Proc.proc_set _ _ _ _ hn).trans (if_pos rfl)) lives
  · obtain rfl := Except.ok.inj run
    rfl

theorem exec_data (h : Sane E pool lost s) (hcode : s.hart.code = i :: k)
    (run : exec E junk s i k = .ok s') (hp : s.proc j = some p) (lives : s'.proc j ≠ none)
    (hother : s.current = some j → i.touches = false) :
    (s'.proc j).map Process.toProcData = some p.toProcData := by
  obtain ⟨S, lvl, top, hh⟩ := h.control
  by_cases hκ : i.kind = .space
  swap
  · rw [((exec_emits hh hcode run).memory hκ).data, hp]
    rfl
  suffices hsame : s'.proc j = s.proc j by
    rw [hsame, hp]
    rfl
  obtain ⟨rest, hb⟩ := (Beside.nil hcode).books h
  cases i with
  | getcharLoop r =>
    obtain rfl := Except.ok.inj run
    rfl
  | getcharCheck r =>
    obtain rfl := Except.ok.inj run
    rcases Console.getcharCheck_eq s r k with ⟨_, he⟩ | ⟨_, he⟩
    · rw [he]
      rfl
    · rw [he]
      rfl
  | gotChar r byte =>
    cases r with
    | kernel => cases hκ
    | user f ptr cap buf =>
      obtain ⟨rfl, rfl, rfl⟩ := hh.leads hcode
      obtain ⟨c, q, u, rest', hs⟩ := (Beside.nil hcode).serving h rfl (hh.caller h.manned hcode rfl)
      obtain ⟨_, ⟨_, _, hsame⟩, _⟩ := (hs.readRest_ends f ptr byte).result run
      refine hsame j ?_
      rintro rfl
      cases hother (Sys.currentProc_eq hs.current).1
  | kerneltrap f code stval =>
    obtain ⟨rfl, rfl, rfl⟩ := hh.leads hcode
    obtain ⟨c, q, u, rest', hs⟩ := (Beside.nil hcode).serving h rfl (hh.caller h.manned hcode rfl)
    obtain ⟨_, ⟨_, _, hsame⟩, _⟩ := hs.kerneltrap_handled run
    refine hsame j ?_
    rintro rfl
    cases hother (Sys.currentProc_eq hs.current).1
  | box size a =>
    simp only [exec, bind_ok, Except.ok.injEq] at run
    obtain ⟨s₁, hr, rfl⟩ := run
    exact proc_of_procs (Proc.box_procs hr) j
  | unbox n =>
    simp only [exec, bind_ok, Except.ok.injEq] at run
    obtain ⟨s₁, hr, rfl⟩ := run
    exact proc_of_procs (Proc.unbox_procs hr) j
  | reap n => exact Proc.reapLoop_proc run lives
  | loadImage prog fin =>
    simp only [exec, Proc.loadImage] at run
    split at run
    · cases run
    · simp only [bind_ok, Except.ok.injEq] at run
      obtain ⟨_, _, rfl⟩ := run
      rfl
  | loadText prog t n fin =>
    simp only [exec, Proc.loadText] at run
    split at run
    · simp only [bind_ok, Except.ok.injEq] at run
      obtain ⟨_, _, rfl⟩ := run
      rfl
    · obtain rfl := Except.ok.inj run
      rfl
  | loadStack prog t fin =>
    simp only [exec, Proc.loadStack, bind_ok, Except.ok.injEq] at run
    obtain ⟨_, _, _, _, rfl⟩ := run
    rfl
  | spawn =>
    obtain ⟨_, _, hprocs, rfl, _⟩ := (Books.spawn_ends hb k).result run
    exact proc_of_procs hprocs j
  | spawnUser prog t =>
    obtain ⟨_, _, hprocs, rfl, _⟩ := (Books.spawnUser_ends hb k).result run
    exact proc_of_procs hprocs j
  | execCommit prog t =>
    obtain ⟨rfl, rfl, rfl⟩ := hh.leads hcode
    obtain ⟨c, q, u, rest', hs⟩ := (Beside.nil hcode).serving h rfl (hh.caller h.manned hcode rfl)
    obtain ⟨s₁, hw, hrun, _⟩ := (hs.books.perm List.perm_middle.symm).execCommit_works hs.current
    obtain rfl := Except.ok.inj (hrun.symm.trans run)
    have hcj : j ≠ c := by
      rintro rfl
      cases hother (Sys.currentProc_eq hs.current).1
    exact (Sys.proc_setProc ..).trans ((if_neg hcj).trans (hw.only.proc j))
  | fork f =>
    obtain ⟨rfl, rfl, rfl⟩ := hh.leads hcode
    obtain ⟨c, q, u, hcur, hut, _⟩ := hh.caller h.manned hcode rfl
    have hq : .proc q.toProcData ∈ lost.map Asset.block ++ stock E s :=
      List.mem_append_right _ (Sane.in_stock (Sys.currentProc_eq hcur).2)
    obtain ⟨_, _, hprocs, rfl, _⟩ := (Books.fork_ends h.ledger hcur hq hut).result run
    exact proc_of_procs hprocs j
  | publish d =>
    simp only [exec, bind_ok, Except.ok.injEq] at run
    obtain ⟨s₁, hr, rfl⟩ := run
    obtain ⟨_, slot, _, hslot, _, hproc, _⟩ := Proc.publish_eq hr
    refine (hproc j).trans (if_neg ?_)
    rintro rfl
    rw [hp] at hslot
    cases hslot
  | freeUserTable t =>
    simp only [exec, bind_ok, Except.ok.injEq] at run
    obtain ⟨s₁, hr, rfl⟩ := run
    exact proc_of_procs (congrArg Sys.procs (OnlyMem.freeTable hr)) j
  | _ => cases hκ

/-- A piece that works on no process but those that touch their own. -/
theorem Instr.works_untouching {i : Instr T} (h : i.works s = some j)
    (hother : s.current = some j → i.touches = false) : i = .reap j := by
  cases i with
  | umode | kerneltrap | execCommit => cases hother h
  | gotChar r byte =>
    cases r with
    | kernel => cases h
    | user => cases hother h
  | reap n =>
    obtain rfl := Option.some.inj h
    rfl
  | _ => cases h

theorem exec_undisturbed (h : Sane E pool lost s) (hcode : s.hart.code = i :: k)
    (run : exec E junk s i k = .ok s') (hp : s.proc j = some p) (lives : s'.proc j ≠ none)
    (hother : s.current = some j → i.touches = false) : Undisturbed j p s s' := by
  refine ⟨exec_data h hcode run hp lives hother, fun t ht => ?_⟩
  by_cases hw : i.works s = some j
  · obtain rfl := i.works_untouching hw hother
    exact .of_phys (Proc.reapLoop_alive run hp lives) t
  · have hl := exec_leaves h hcode run (.proc hcode hp hw)
    refine hl.proc_space h.ledger (fun a ha => ?_) List.mem_cons_self ht
    obtain rfl := List.mem_singleton.mp ha
    exact List.mem_append_right _ (Sane.in_stock hp)

/-- The process in slot `j` is about to change its own space, or might be. -/
def Sys.touching (s : Sys T) (j : Nat) : Prop :=
  s.current = some j ∧ ∃ i k, s.hart.code = i :: k ∧ i.touches = true

theorem step_undisturbed (h : Sane E pool lost s) (move : Step E s s') (hp : s.proc j = some p)
    (lives : s'.proc j ≠ none) (quiet : ¬s.touching j) : Undisturbed j p s s' := by
  have hsame : ∀ h' : Hart T, Undisturbed j p s { s with hart := h' } := fun h' =>
    ⟨congrArg (Option.map Process.toProcData) hp, fun t _ => .of_phys rfl t⟩
  cases move with
  | exec junk code run =>
    refine exec_undisturbed h code run hp lives fun hcur => ?_
    exact eq_false_of_ne_true fun ht => quiet ⟨hcur, _, _, code, ht⟩
  | userStore va pa b code mapped =>
    refine ⟨congrArg (Option.map Process.toProcData) hp, fun t ht => ?_⟩
    have hbeside : ∀ i k, s.hart.code = i :: k → Beside E lost s i [.proc p.toProcData] := by
      intro i k hcode
      obtain ⟨rfl, rfl⟩ := List.cons.inj (code.symm.trans hcode)
      exact .proc code hp fun hcur => quiet ⟨hcur, _, _, code, rfl⟩
    have hl := step_leaves h (.userStore va pa b code mapped) hbeside
    refine hl.proc_space h.ledger (fun a ha => ?_) List.mem_cons_self ht
    obtain rfl := List.mem_singleton.mp ha
    exact List.mem_append_right _ (Sane.in_stock hp)
  | _ => exact hsame _

/-- A run in which the process in slot `j` stays, and does nothing to its space. -/
inductive Aside (E : Env) (j : Nat) (s₀ : Sys T) : Sys T → Prop where
  | start : Aside E j s₀ s₀
  | step (before : Aside E j s₀ u) (quiet : ¬u.touching j) (move : Step E u v)
      (lives : v.proc j ≠ none) : Aside E j s₀ v

theorem Undisturbed.trans (h : Undisturbed j p s s₁) (hp : s₁.proc j = some q) (h' : Undisturbed j q s₁ s') :
    Undisturbed j p s s' := by
  have hdata : q.toProcData = p.toProcData := by
    have hd := h.data
    rw [hp] at hd
    exact Option.some.inj hd
  refine ⟨h'.data.trans (congrArg some hdata), fun t ht va hva => ?_⟩
  obtain ⟨htr, hmem⟩ := h.space t ht va hva
  obtain ⟨htr', hmem'⟩ := h'.space t (by rw [hdata]; exact ht) va hva
  refine ⟨htr'.trans htr, fun pa pte hpa hu => ?_⟩
  exact (hmem' pa pte (htr.trans hpa) hu).trans (hmem pa pte hpa hu)

namespace Aside

theorem reachable (h : Aside E j s s') (hr : Reachable E reserved s) : Reachable E reserved s' := by
  induction h with
  | start => exact hr
  | step _ _ move _ ih => exact ih.step move

theorem undisturbed (h : Aside E j s s') (hr : Reachable E reserved s) (hp : s.proc j = some p) :
    Undisturbed j p s s' := by
  induction h with
  | start => exact ⟨congrArg (Option.map Process.toProcData) hp, fun t _ => .of_phys rfl t⟩
  | step before quiet move lives ih =>
    rename_i s₁ s₂
    have hbefore := ih
    have hq : ∃ q, s₁.proc j = some q := by
      cases hq : s₁.proc j with
      | none =>
        have hd := hbefore.data
        rw [hq] at hd
        cases hd
      | some q => exact ⟨q, rfl⟩
    obtain ⟨q, hq⟩ := hq
    obtain ⟨res, lost, _, hs⟩ := reachable_sane (before.reachable hr)
    exact hbefore.trans hq (step_undisturbed hs move hq lives quiet)

end Aside

/-- A thread that is about to touch its space is the one on the hart. -/
theorem Control.Holds.touched (h : Holds S lvl top s) (ht : s.touching j) :
    ∃ p, s.proc j = some p ∧ codeOf s p = s.hart.code := by
  obtain ⟨hcur, i, k, hcode, hi⟩ := ht
  have hthread : Place .thread top s → ∃ p, s.proc j = some p ∧ codeOf s p = s.hart.code := by
    intro hplace
    obtain ⟨p, hp, hempty⟩ := hplace.caller hcur
    exact ⟨p, hp, codeOf_hart hempty⟩
  cases i with
  | umode =>
    obtain ⟨rfl, _⟩ := h.leads hcode
    obtain ⟨l, p, hat, _⟩ := h.place
    obtain rfl := Option.some.inj (hat.current.symm.trans hcur)
    exact ⟨p, hat.here, codeOf_hart hat.empty⟩
  | kerneltrap | execCommit =>
    obtain ⟨rfl, _⟩ := h.leads hcode
    exact hthread h.place
  | gotChar r byte =>
    cases r with
    | kernel => cases hi
    | user f ptr cap buf =>
      obtain ⟨rfl, _⟩ := h.leads hcode
      exact hthread h.place
  | _ => cases hi

/-- Interrupts on top of code do not touch the space of the process they came into. -/
theorem Over.quiet {F : List (Instr T) → Prop} (h : Holds S lvl top s) (hp : s.proc l = some p)
    (ho : Over F (codeOf s p)) (hF : ∀ i k, F (i :: k) → i.touches = false) : ¬s.touching l := by
  intro ht
  obtain ⟨q, hq, hcode⟩ := h.touched ht
  obtain ⟨_, i, k, hhart, hi⟩ := ht
  obtain rfl := Option.some.inj (hq.symm.trans hp)
  rw [hcode, hhart] at ho
  rcases ho.head with hpass | hform
  · cases i <;> first | (cases hpass; done) | cases hi
  · rw [hF i k hform] at hi
    cases hi

theorem trapRet_aside (hr : Reachable E reserved s₀) (hp₀ : s₀.proc l = some p₀)
    (ho : Over (· = [.trapRet f]) (codeOf s₀ p₀)) (busy : Busy E l (· = [.umode]) s₀ s)
    (move : Step E s s') (hp : s'.proc l = some p) (hback : codeOf s' p = [.umode]) : Aside E l s₀ s' := by
  refine busy.returns
    (I := fun s => Aside E l s₀ s ∧ ∃ p, s.proc l = some p ∧ Over (· = [.trapRet f]) (codeOf s p))
    (Q := Aside E l s₀) hr ⟨.start, p₀, hp₀, ho⟩ (fun S lvl top s s' _ _ h move hI => ?_)
    (fun s p hI hp hb => ?_) move hp hback
  · obtain ⟨haside, p, hp, ho⟩ := hI
    obtain ⟨p', hp', hnext⟩ := ho.step h (trapRet_forms E s f) hp move
    have hquiet : ¬s.touching l := ho.quiet h hp fun i k hf => by
      obtain ⟨rfl, _⟩ := List.cons.inj hf
      rfl
    have haside' : Aside E l s₀ s' := .step haside hquiet move (by rw [hp']; exact nofun)
    rcases hnext with ho' | ⟨hcur, _, hcode⟩
    · exact .inl ⟨haside', p', hp', ho'⟩
    · obtain ⟨rfl, rfl, _⟩ := h.leads hcode
      obtain ⟨q, hq, hempty⟩ := h.place.caller hcur
      obtain ⟨junk, run⟩ := move.quiet hcode h.reads.2 rfl
      obtain rfl := Except.ok.inj run
      exact .inr ⟨q, hq, codeOf_hart hempty, haside'⟩
  · obtain ⟨_, q, hq, ho⟩ := hI
    obtain rfl := Option.some.inj (hq.symm.trans hp)
    rw [hb] at ho
    rcases ho.head with hx | hx <;> cases hx

/-- What a process owns changes by its own doing only. Nothing another process or
the kernel does meanwhile shows in its data or in its space; and a program that is
interrupted finds registers, memory, descriptors and heap bounds as it left them,
however many others have run before it is back. -/
theorem process_undisturbed (h : Reachable E reserved s) (hp : s.proc j = some p) :
    (∀ s', Aside E j s s' → Undisturbed j p s s') ∧
    ∀ (irq : Irq) s₂ s₃ p', s.hart.stack = .user → s.current = some j →
      Busy E j (· = [.umode]) (Trap.fromUser s (irq.code E ++ [.trapRet (Trap.frameOf s.hart)])) s₂ →
      Step E s₂ s₃ → s₃.proc j = some p' → codeOf s₃ p' = [.umode] →
      s₃.current = some j ∧ s₃.hart.stack = .user ∧ s₃.hart.regs = s.hart.regs ∧
        s₃.hart.pc = s.hart.pc ∧ s₃.hart.satp = s.hart.satp ∧ Undisturbed j p s s₃ := by
  refine ⟨fun s' run => run.undisturbed h hp, ?_⟩
  intro irq s₂ s₃ p' hu hcur busy move hp' hback
  obtain ⟨S, lvl, top, hh⟩ := h.controlled
  obtain ⟨rfl, hcode⟩ := hh.on_user hu
  obtain ⟨i, q, hat, _, _, _, _, hsatp⟩ := hh.place
  obtain rfl := Option.some.inj (hat.current.symm.trans hcur)
  obtain rfl := Option.some.inj (hat.here.symm.trans hp)
  have hint : Interrupted E s _ := .irq irq
  have hr₁ := hint.reachable h hcode
  obtain ⟨p₁, hp₁, ho⟩ := hint.over hat.here hat.empty
  obtain rfl := Option.some.inj (hat.here.symm.trans hp₁)
  obtain ⟨hcur₃, hu₃, hregs, hpc⟩ := trapRet_returns hr₁ hp₁ ho busy move hp' hback
  have hkept : Undisturbed i q s s₃ := by
    have haside := (trapRet_aside hr₁ hp₁ ho busy move hp' hback).undisturbed hr₁ hp₁
    exact ⟨haside.data, haside.space⟩
  obtain ⟨S₃, lvl₃, top₃, hh₃⟩ := ((busy.reachable hr₁).step move).controlled
  obtain ⟨rfl, _⟩ := hh₃.on_user hu₃
  obtain ⟨i₃, q₃, hat₃, _, _, _, _, hsatp₃⟩ := hh₃.place
  obtain rfl := Option.some.inj (hat₃.current.symm.trans hcur₃)
  have hdata : q₃.toProcData = q.toProcData := by
    have hd := hkept.data
    rw [hat₃.here] at hd
    exact Option.some.inj hd
  refine ⟨hcur₃, hu₃, hregs, hpc, ?_, hkept⟩
  rw [hsatp₃, hsatp, hdata]

/-- The only process, over an interrupt that brought no byte. -/
theorem process_undisturbed_lone : ∃ (s s₃ : Sys Nat) (p : Process Nat), Reachable smallEnv none s ∧
    s.proc 0 = some p ∧ Step smallEnv (Trap.fromUser s [.trapRet (Trap.frameOf s.hart)]) s₃ ∧
    s₃.hart.regs = s.hart.regs ∧ Undisturbed 0 p s s₃ := by
  obtain ⟨s, d, h⟩ := lone Nat
  have hstack : s.hart.stack = .user := by
    rw [h.hart]
    rfl
  obtain ⟨t, hin⟩ := h.inside
  have hp := (Sys.currentProc_eq hin.caller).2
  have hback : Step smallEnv _ _ := .exec (fun _ => 0) rfl (rfl : exec smallEnv (fun _ => 0)
    (Trap.fromUser s [.trapRet (Trap.frameOf s.hart)]) (.trapRet (Trap.frameOf s.hart)) [] = _)
  obtain ⟨_, _, hregs, _, _, hkept⟩ := (process_undisturbed h.reachable hp).2 (.uart []) _ _ _ hstack
    h.current .start hback hp rfl
  exact ⟨s, _, _, h.reachable, hp, hback, hregs, hkept⟩

end Osmium
