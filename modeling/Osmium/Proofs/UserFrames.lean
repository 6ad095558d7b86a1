import Osmium.Proofs.Footprint
import Osmium.Proofs.Startup

namespace Osmium
open Lib Vm Control

variable {T : Type} {E : Env} {pool : PagePool E.allocStart} {s s' : Sys T}

/-- A frame of U-mode: it goes back there, and with interrupts on. -/
def TrapFrame.FromUser (f : TrapFrame) : Prop := f.sstatus = { spp := false, spie := true }

/-- A process lies in a box for doublewords, and so does the frame it was forked
with, which is one of U-mode. -/
structure ProcData.Boxed (d : ProcData) : Prop where
  record : d.box % 8 = 0
  frame : ∀ b f, d.forkFrame = some (b, f) → b % 8 = 0 ∧ f.FromUser

/-- The frame that a piece of code will go on with, if any, is one of U-mode. -/
def Instr.Framed : Instr T → Prop
  | .userret f _ | .trapRet f | .sysRet f _ | .kerneltrap f _ _ | .fork f => f.FromUser
  | .getcharLoop (.user f ..) | .getcharCheck (.user f ..) | .gotChar (.user f ..) _ => f.FromUser
  | .publish d => d.Boxed
  | _ => True

attribute [local simp] Instr.Framed

def Framed (c : List (Instr T)) : Prop := ∀ x ∈ c, x.Framed

@[simp] theorem framed_nil : Framed ([] : List (Instr T)) := List.forall_mem_nil _

@[simp] theorem framed_cons : Framed (x :: c) ↔ x.Framed ∧ Framed (T := T) c :=
  List.forall_mem_cons

@[simp] theorem framed_append : Framed (c ++ c') ↔ Framed c ∧ Framed (T := T) c' :=
  List.forall_mem_append

theorem wakeup_framed (chan : Nat) : Framed (T := T) (Proc.wakeup chan) := by
  simp [Proc.wakeup]

theorem onInput_framed (E : Env) (b : UInt8) : Framed (T := T) (Console.onInput E b) := by
  simp [Console.onInput, wakeup_framed]

theorem irq_framed (E : Env) (irq : Irq) : Framed (T := T) (irq.code E) := by
  cases irq with
  | timer => simp [Irq.code, Timer.handler, wakeup_framed]
  | uart bytes =>
    intro x hx
    obtain ⟨b, _, hx⟩ := List.mem_flatMap.mp hx
    exact onInput_framed E b x hx

theorem op_framed (E : Env) (op : Op T) : Framed (op.code E) := by
  cases op <;> simp [Op.code, Proc.yieldNow, Sync.signal, Sync.send, Sync.recv, wakeup_framed]

theorem Calls.framed {c : List (Instr T)} (h : Calls f c) (hf : f.FromUser) : Framed c := by
  cases h <;> simp [Proc.yieldNow, hf]

/-- A piece of code passes on the frames it has, or the one its process was
forked with; only an offered process is looked at apart. -/
theorem Follows.framed (h : Follows E s i k c) (hk : Framed (i :: k))
    (hfork : ∀ j p, s.currentProc = some (j, p) → p.Boxed)
    (hoffer : ∀ d, .publish d ∈ c → d.Boxed) : Framed c := by
  obtain ⟨hi, htail⟩ := framed_cons.mp hk
  cases h with
  | plain | tickDone | tickOver | noYield => exact htail
  | idle => exact hk
  | trapCall calls =>
    apply calls.framed
    exact (hi :)
  | trapBreak len => simpa [TrapFrame.FromUser] using hi
  | fetchFork caller frame =>
    have hf := ((hfork _ _ caller).frame _ _ frame).2
    simpa [hf] using htail
  | fetchEntry caller =>
    rename_i p
    cases p.entry <;> simp [Proc.entryCode]
  | @execCommit _ p _ _ _ caller =>
    unfold Proc.execRest
    cases p.userTable <;> simp
  | spawnUser d | spawn d =>
    have hd := hoffer d (by simp [Proc.publishing])
    simpa [Proc.publishing, htail] using hd
  | fork d =>
    have hd := hoffer d (by simp [Proc.publishing])
    simpa [Proc.publishing, hd] using hi
  | getchar r | getcharSleep r | getcharGot r =>
    cases r <;> simp_all [Console.getcharCode, Proc.sleep]
  | pick j root => simp [Proc.afterSwitch]
  | _ => simp_all [Proc.yieldNow, Proc.exitCode, Proc.sleep, Sync.waitCode, wakeup_framed]

/-- A new process lies where its box was asked for. -/
theorem Owns.spawnWith_box (h : Owns pool s hs live) (run : Proc.spawnWith E s body configure = .ok (d, s')) :
    ∃ d₀, d = configure d₀ ∧ d₀.box % 8 = 0 ∧ d₀.forkFrame = none := by
  simp only [Proc.spawnWith, bind_ok, Except.ok.injEq, Prod.mk.injEq] at run
  obtain ⟨⟨kstack, s₁⟩, hstack, ⟨box, s₂⟩, hbox, rfl, _⟩ := run
  have hs₁ := (h.alloc hstack).1
  have halign : box % 2 ^ 3 = 0 := (Owns.alloc (s := { s₁ with nextPid := s₁.nextPid + 1 }) hs₁ hbox).2.2.1
  exact ⟨_, rfl, halign, rfl⟩

/-- A fork offers its child with the caller's frame, and nothing else offers one. -/
theorem bears_framed (h : Sane E pool lost s) (hcode : s.hart.code = i :: k) (hi : i.Framed)
    (hb : i.bears = true) (run : exec E junk s i k = .ok s') (hin : .publish d ∈ s'.hart.code) :
    .publish d ∈ k ∨ d.Boxed := by
  have offered : ∀ {d' : ProcData} {tail : List (Instr T)}, .publish d ∈ Proc.publishing d' ++ tail →
      d = d' ∨ .publish d ∈ tail := by
    intro d' tail hin
    simpa [Proc.publishing] using hin
  have plain : ∀ {d' : ProcData}, d'.box % 8 = 0 → d'.forkFrame = none → d'.Boxed := by
    intro d' hbox hnone
    refine ⟨hbox, fun b g hg => ?_⟩
    rw [hnone] at hg
    cases hg
  cases i with
  | spawn =>
    simp only [exec, Proc.spawn, bind_ok, Except.ok.injEq] at run
    obtain ⟨⟨d', s₁⟩, hs, rfl⟩ := run
    obtain ⟨d₀, rfl, hbox, hnone⟩ := h.ledger.owns.spawnWith_box hs
    rcases offered hin with rfl | hin
    · exact .inr (plain hbox hnone)
    · exact .inl hin
  | spawnUser prog table =>
    simp only [exec, Proc.spawnUser, bind_ok, Except.ok.injEq] at run
    obtain ⟨⟨d', s₁⟩, hs, rfl⟩ := run
    obtain ⟨d₀, rfl, hbox, hnone⟩ := h.ledger.owns.spawnWith_box hs
    rcases offered hin with rfl | hin
    · exact .inr (plain hbox hnone)
    · exact .inl hin
  | fork f =>
    obtain ⟨S, lvl, top, hh⟩ := h.control
    obtain ⟨rfl, rfl, rfl⟩ := hh.leads hcode
    obtain ⟨j, p, t, hcur, ht, _⟩ := hh.caller h.manned hcode rfl
    have hp := (Sys.currentProc_eq hcur).2
    simp only [exec, Proc.fork, hcur, bind_ok, Except.ok.injEq] at run
    obtain ⟨⟨child, P⟩, hclone, ⟨b, s₁⟩, halloc, ⟨d', s₂⟩, hs, rfl⟩ := run
    rw [(h.sound hp).page, ht] at hclone
    have hasset : .proc p.toProcData ∈ lost.map Asset.block ++ stock E s :=
      List.mem_append_right _ (Sane.in_stock hp)
    have hbooks := ((Books.clone_ends h.ledger hasset ht).result hclone).1
    obtain ⟨howns, _, hframe, _⟩ := hbooks.owns.alloc halloc
    obtain ⟨d₀, rfl, hbox, _⟩ := howns.spawnWith_box hs
    rcases offered hin with rfl | hin
    · refine .inr ⟨hbox, fun b' g hg => ?_⟩
      obtain ⟨rfl, rfl⟩ := Prod.mk.inj (Option.some.inj hg)
      exact ⟨hframe, hi⟩
    · cases List.mem_singleton.mp hin
  | _ => cases hb

/-- Every frame there is, of pending code and of forked processes, is one of
U-mode, and U-mode runs with interrupts on. -/
structure Unprivileged (s : Sys T) : Prop where
  code : Kept.All Framed s
  forks : ∀ j p, s.proc j = some p → p.Boxed
  on : s.hart.code = [.umode] → s.hart.sie = true

theorem Control.Code.of_umode (h : Code (T := T) kroot top S lvl c) (hc : c = [.umode]) :
    S = .user ∧ lvl = .loose := by
  subst hc
  obtain ⟨hs, hl, _⟩ := h.leads
  exact ⟨hs, hl⟩

/-- Nothing is ever put before the code of U-mode. -/
theorem Control.Code.umode_alone (h : Code (T := T) kroot top S lvl (i :: k)) (hk : k = [.umode]) : False := by
  cases h with
  | popHeld site rest =>
    obtain ⟨rfl, _⟩ := rest.of_umode hk
    cases site
  | _ =>
    first
      | (cases hk; done)
      | rename_i rest
        cases (rest.of_umode hk).2

/-- U-mode is entered with interrupts on. -/
theorem exec_on (h : Holds S lvl top s) (hu : Unprivileged s) (hcode : s.hart.code = i :: k)
    (run : exec E junk s i k = .ok s') (hback : s'.hart.code = [.umode]) : s'.hart.sie = true := by
  have hc := h.code
  have hf := hu.code.hart
  rw [hcode] at hc hf
  have hi := (framed_cons.mp hf).1
  cases hsw : i.switches with
  | true =>
    obtain ⟨S', top', hheld⟩ := switch_held h hcode run hsw
    cases (hheld.of_umode hback).2
  | false =>
    have hfollow := (exec_turns hcode run).code hsw
    generalize s'.hart.code = c at hfollow hback
    cases hfollow with
    | plain | tickDone | tickOver | noYield => exact (hc.umode_alone hback).elim
    | idle =>
      obtain ⟨rfl, rfl⟩ := List.cons.inj hback
      obtain rfl := Except.ok.inj run
      exact hu.on hcode
    | drop drops =>
      cases i with
      | enterUser entry sp top =>
        obtain rfl := Except.ok.inj run
        rfl
      | userret f top =>
        obtain rfl := Except.ok.inj run
        exact congrArg Sstatus.spie hi
      | trapRet f =>
        obtain rfl := Except.ok.inj run
        exact congrArg Sstatus.spie hi
      | sysRet f n =>
        obtain rfl := Except.ok.inj run
        exact congrArg Sstatus.spie hi
      | _ => cases drops
    | trapCall calls => cases calls <;> cases hback
    | fetchEntry =>
      rename_i p _
      cases he : p.entry <;> rw [he] at hback <;> cases hback
    | execCommit => cases hback
    | pick => cases hback
    | _ => cases hback

theorem ProcData.Boxed.static {p q : Process T} (h : p.Boxed) (hs : static q = static p) : q.Boxed := by
  have hbox : q.box = p.box := (congrArg ProcData.box hs :)
  have hframe : q.forkFrame = p.forkFrame := (congrArg ProcData.forkFrame hs :)
  refine ⟨?_, ?_⟩
  · rw [hbox]
    exact h.record
  · rw [hframe]
    exact h.frame

theorem step_forks (hu : Unprivileged s) (move : Step E s s') (hq : s'.proc j = some q) : q.Boxed := by
  rcases step_heirs move hq with ⟨p, hp, hs | ⟨_, prog, table, rfl⟩⟩ | ⟨_, d, k, rfl, hcode⟩
  · exact (hu.forks j p hp).static hs
  · refine ⟨(hu.forks j p hp).record, fun b g hg => ?_⟩
    cases hg
  · have hf := hu.code.hart
    rw [hcode] at hf
    exact (framed_cons.mp hf).1

theorem exec_unprivileged (h : Sane E pool lost s) (hu : Unprivileged s) (hcode : s.hart.code = i :: k)
    (run : exec E junk s i k = .ok s') : Unprivileged s' := by
  obtain ⟨S, lvl, top, hh⟩ := h.control
  have hf := hu.code.hart
  rw [hcode] at hf
  obtain ⟨hi, hk⟩ := framed_cons.mp hf
  refine ⟨?_, fun j q hq => step_forks hu (.exec junk hcode run) hq, exec_on hh hu hcode run⟩
  refine hu.code.exec hcode run framed_nil ?_ (fun _ _ => hk) (fun _ => ?_) fun hsw => ?_
  · simp [Proc.threadEntry]
  · simpa using hk
  · have hfollow := (exec_turns hcode run).code hsw
    apply hfollow.framed hf
    · intro j p hcur
      exact hu.forks j p (Sys.currentProc_eq hcur).2
    · intro d hin
      rcases hfollow.origin hin rfl with hin | hb
      · exact hk _ hin
      · cases hb with
        | child d hb =>
          rcases bears_framed h hcode hi hb run hin with hin | hd
          · exact hk _ hin
          · exact hd

theorem step_unprivileged (h : Sane E pool lost s) (hu : Unprivileged s) (move : Step E s s') : Unprivileged s' := by
  obtain ⟨S, lvl, top, hh⟩ := h.control
  have hforks := fun j q => step_forks (j := j) (q := q) hu move
  obtain ⟨⟨hhart, hsched, hprocs⟩, _, hon⟩ := hu
  -- a trap is taken with the frame of a hart that runs with interrupts on
  have hframe : s.hart.code = [.umode] → (Trap.frameOf s.hart).FromUser := by
    intro hcode
    unfold TrapFrame.FromUser Trap.frameOf
    rw [hon hcode]
  have hother : ∀ {x : Instr T} {c : List (Instr T)}, x ∈ c → x ≠ .umode → c ≠ [.umode] := by
    rintro x c hx hne rfl
    exact hne (List.mem_singleton.mp hx)
  cases move with
  | exec junk code run => exact exec_unprivileged h ⟨⟨hhart, hsched, hprocs⟩, ‹_›, hon⟩ code run
  | call op code =>
    rw [code] at hhart
    refine ⟨⟨framed_append.mpr ⟨op_framed E op, hhart⟩, hsched, hprocs⟩, hforks, fun hc => ?_⟩
    exact absurd hc (hother (List.mem_append_right _ List.mem_cons_self) (fun h => by cases h))
  | bootCall op early code =>
    rw [code] at hhart
    refine ⟨⟨framed_append.mpr ⟨op_framed E op, hhart⟩, hsched, hprocs⟩, hforks, fun hc => ?_⟩
    exact absurd hc (hother (List.mem_append_right _ List.mem_cons_self) (fun h => by cases h))
  | leave code | bootDone code =>
    refine ⟨⟨?_, hsched, hprocs⟩, hforks, fun hc => by cases hc⟩
    simp [Sys.goto]
  | interrupt irq on kernel =>
    refine ⟨⟨?_, hsched, hprocs⟩, hforks, fun hc => ?_⟩
    · simpa [Trap.fromKernel] using And.intro (irq_framed E irq) hhart
    · exact absurd hc (hother (List.mem_append_right _ List.mem_cons_self) (fun h => by cases h))
  | userInterrupt irq code =>
    obtain ⟨_, _, rfl⟩ := hh.leads code
    refine ⟨⟨?_, hsched, hprocs⟩, hforks, fun hc => ?_⟩
    · simpa [Trap.fromUser, irq_framed E irq] using hframe code
    · exact absurd hc (hother (List.mem_append_right _ List.mem_cons_self) (fun h => by cases h))
  | userTrap cause stval word code fetched =>
    obtain ⟨_, _, rfl⟩ := hh.leads code
    refine ⟨⟨?_, hsched, hprocs⟩, hforks, fun hc => by cases hc⟩
    simpa [Trap.fromUser] using hframe code
  | userAlu regs pc words code => exact ⟨⟨hhart, hsched, hprocs⟩, hforks, hon⟩
  | userStore va pa b code mapped => exact ⟨⟨hhart, hsched, hprocs⟩, hforks, hon⟩

theorem reachable_unprivileged (h : Reachable E reserved s) : Unprivileged s := by
  induction h with
  | boot m regs run =>
    simp only [kmain, bind_ok, Except.ok.injEq] at run
    obtain ⟨_, _, _, _, _, _, _, _, _, _, _, _, _, _, rfl⟩ := run
    refine ⟨⟨?_, framed_nil, fun j p hp => ?_⟩, fun j p hp => ?_, fun hc => ?_⟩
    · simp
    · cases hp
    · cases hp
    · cases hc
  | step reach move ih =>
    obtain ⟨res, lost, _, hs⟩ := reachable_sane reach
    exact step_unprivileged hs ih move

end Osmium
