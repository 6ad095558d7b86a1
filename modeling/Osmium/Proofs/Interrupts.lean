import Osmium.Proofs.Lone

namespace Osmium
open Lib Control Site Level

variable {T : Type} {E : Env} {s s' : Sys T}

/-- Only a context that was saved begins by restoring the interrupt intent. -/
theorem Control.Code.fresh_intent {k : List (Instr T)} (h : Code kroot top S lvl (i :: k)) (b : Bool)
    (k' : List (Instr T)) : k ≠ .setIntena b :: k' := by
  rintro rfl
  -- it would be a thread's, at a level that only a switch leaves behind
  cases h with
  | switchMoving frees rest => cases rest.leads.2.1
  | swtchTo rest | switchBack rest | clearCurrent rest => cases rest.leads.1
  | _ => rename_i rest; cases rest.leads.2.1

theorem Follows.fresh_intent (h : Follows E s i k c) (hsw : i.switches = false) (hi : ∀ b, i ≠ .setIntena b)
    (hk : ∀ b k', k ≠ .setIntena b :: k') (b : Bool) (k' : List (Instr T)) : c ≠ .setIntena b :: k' := by
  cases h with
  | plain | noYield | tickDone | tickOver => exact hk b k'
  | sched => cases hsw
  | idle idles =>
    rintro he
    exact hi b (List.cons.inj he).1
  | trapCall calls => cases calls <;> exact fun he => by cases he
  | fetchEntry =>
    rename_i p _
    cases p.entry <;> exact fun he => by cases he
  | _ => exact fun he => by cases he

theorem pushOff_depth (h : Hart T) (hn : 0 < h.noff) :
    0 < (Spinlock.pushOff h).noff ∧ (Spinlock.pushOff h).intena = h.intena :=
  ⟨Nat.succ_pos _, if_neg (Nat.pos_iff_ne_zero.mp hn)⟩

/-- The last `pop_off` brings the intent to bear. -/
theorem popOff_depth {h h' : Hart T} (hp : Spinlock.popOff h = .ok h') :
    0 < h'.noff ∧ h'.intena = h.intena ∨ h'.noff = 0 ∧ h'.sie = h.intena := by
  obtain ⟨hoff, hn, rfl⟩ := popOff_eq hp
  by_cases h1 : h.noff = 1
  · refine .inr ⟨by rw [h1], ?_⟩
    cases hi : h.intena <;> simp [h1, hoff]
  · exact .inl ⟨by dsimp only; omega, rfl⟩

/-- Below the surface, a piece keeps the intent, or comes up with it. -/
theorem exec_depth (h : Holds S lvl top s) (hcode : s.hart.code = i :: k)
    (run : exec E junk s i k = .ok s') (hn : 0 < s.hart.noff) (hi : ∀ b, i ≠ .setIntena b) :
    0 < s'.hart.noff ∧ s'.hart.intena = s.hart.intena ∨
      s'.hart.noff = 0 ∧ s'.hart.sie = s.hart.intena := by
  by_cases hm : i.masks = false
  · obtain ⟨_, hnoff, hintena⟩ := (exec_turns hcode run).irq hm
    exact .inl ⟨hnoff ▸ hn, hintena⟩
  · have up : ∀ {q}, lvl ≠ nest 0 q := by
      rintro q rfl
      rw [h.reads.1] at hn
      cases hn
    cases i with
    | pushOff =>
      obtain rfl := Except.ok.inj run
      exact .inl (pushOff_depth s.hart hn)
    | acquire l =>
      simp only [exec, bind_ok, Except.ok.injEq] at run
      obtain ⟨s₁, ha, rfl⟩ := run
      obtain ⟨_, rfl⟩ := acquire_eq ha
      exact .inl (pushOff_depth s.hart hn)
    | popOff =>
      simp only [exec, bind_ok, Except.ok.injEq] at run
      obtain ⟨h', hp, rfl⟩ := run
      have hd := popOff_depth hp
      exact hd
    | release l =>
      simp only [exec, bind_ok, Except.ok.injEq] at run
      obtain ⟨s₁, hrel, rfl⟩ := run
      obtain ⟨h', hp, rfl⟩ := release_eq hrel
      have hd := popOff_depth hp
      exact hd
    | semCheck a =>
      rcases semCheck_eq run with ⟨_, rfl⟩ | ⟨_, s₁, s₂, hrel, hst, rfl⟩
      · exact .inl ⟨hn, rfl⟩
      · obtain ⟨h', hp, rfl⟩ := release_eq hrel
        obtain ⟨_, _, _, _, rfl⟩ := Proc.setState_eq hst
        have hd := popOff_depth hp
        exact hd
    | setIntena b => exact absurd rfl (hi b)
    | intrOn =>
      rcases h.leads hcode with ⟨q, hl⟩ | rfl
      · exact absurd hl up
      · rw [show s.hart.noff = 0 from h.reads] at hn
        cases hn
    | intrOff =>
      obtain ⟨q, hl⟩ := h.leads hcode
      exact absurd hl up
    | enterUser =>
      obtain ⟨_, ⟨q, hl⟩, _⟩ := h.leads hcode
      exact absurd hl up
    | sretKernel => exact absurd (h.leads hcode).1 up
    | userret | trapRet | sysRet => exact absurd (h.leads hcode).2.1 up
    | _ => exact absurd rfl hm

theorem Control.Holds.masked (h : Holds S lvl top s) (hn : 0 < s.hart.noff) : s.hart.sie = false := by
  have hr := h.reads
  cases lvl with
  | nest d q =>
    cases d with
    | zero =>
      rw [hr.1] at hn
      cases hn
    | succ d => exact hr.2.1
  | loose =>
    rw [show s.hart.noff = 0 from hr] at hn
    cases hn
  | held => exact hr.2

theorem Control.Holds.busy (h : Holds S lvl top s) (hn : 0 < s.hart.noff) (hcode : s.hart.code = i :: k) :
    i.idles = false := by
  have hr := h.reads
  cases i with
  | body | boot =>
    obtain ⟨_, rfl, _⟩ := h.leads hcode
    rw [hr.1] at hn
    cases hn
  | umode =>
    obtain ⟨_, rfl, _⟩ := h.leads hcode
    rw [show s.hart.noff = 0 from hr] at hn
    cases hn
  | _ => rfl

/-- The thread in slot `l` runs, outside of any `push_off`. -/
def Surfaced (l : Nat) (s : Sys T) : Prop :=
  s.current = some l ∧ s.hart.noff = 0 ∧ ∃ p, s.proc l = some p ∧ p.context.code = []

/-- The states of a run from `s₀` on in which that thread lives and has not come
up again. -/
inductive Under (E : Env) (l : Nat) (s₀ : Sys T) : Sys T → Prop where
  | start : Under E l s₀ s₀
  | step (before : Under E l s₀ s₁) (move : Step E s₁ s₂) (lives : s₂.proc l ≠ none)
      (deep : ¬Surfaced l s₂) : Under E l s₀ s₂

/-- Where the interrupt state that the thread saw at its first `push_off` is
kept: in the intent, and while it does not run, in what it will do first. -/
inductive Remembers (l : Nat) (v : Bool) (s : Sys T) : Prop where
  | runs (here : s.proc l = some p) (empty : p.context.code = []) (deep : 0 < s.hart.noff)
      (intena : s.hart.intena = v) (kept : ∀ b k, s.hart.code ≠ .setIntena b :: k) : Remembers l v s
  | saved (here : s.proc l = some p) (code : codeOf s p = .setIntena v :: k) : Remembers l v s

namespace Remembers

/-- The thread runs on, or hands over the hart. -/
theorem exec_here (h : Holds S lvl top s) (hp : s.proc l = some p) (hempty : p.context.code = [])
    (hcode : s.hart.code = i :: k) (run : exec E junk s i k = .ok s') :
    (∃ p', s'.proc l = some p' ∧ p'.context.code = [] ∧ i.switches = false) ∨
      ∃ p', s'.proc l = some p' ∧ codeOf s' p' = .setIntena s.hart.intena :: k := by
  obtain ⟨hcur, hat⟩ := h.taken hp hempty
  by_cases hs : i.saves = false
  · have hsw : i.switches = false := by cases i <;> first | rfl | cases hs
    have hctx := (exec_turns hcode run).ctx hs
    obtain ⟨p', hp', hc⟩ := proc_back (hctx.procs l).symm hp
    exact .inl ⟨p', hp', hc.symm.trans hempty, hsw⟩
  · cases i with
    | sched =>
      obtain ⟨_, j, q, hj, hq, _, rfl⟩ := Proc.sched_eq run
      obtain rfl := Option.some.inj (hcur.symm.trans hj)
      refine .inr ⟨_, (Sys.proc_setProc s l l _).trans (by rw [if_pos rfl, hp]; rfl), ?_⟩
      rfl
    | publish =>
      simp only [exec, bind_ok, Except.ok.injEq] at run
      obtain ⟨s₁, hpub, rfl⟩ := run
      obtain ⟨s₂, slot, _, hnone, _, hproc, _⟩ := Proc.publish_eq hpub
      refine .inl ⟨p, ?_, hempty, rfl⟩
      show s₁.proc l = some p
      rw [hproc l, if_neg, hp]
      rintro rfl
      rw [hp] at hnone
      cases hnone
    | swtchTo => exact absurd hempty ((h.at_swtchTo hcode).2.contexts l p hp).ne_nil
    | reap => exact absurd hempty ((h.at_reap hcode).1.contexts l p hp).ne_nil
    | _ => exact absurd rfl hs

/-- The thread in question takes a step, or another one. -/
theorem step (h : Holds S lvl top s) (h' : Controlled s') (hm : Remembers l v s) (move : Step E s s')
    (lives : s'.proc l ≠ none) : Remembers l v s' ∨ Surfaced l s' ∧ s'.hart.sie = v := by
  cases hm with
  | runs hp hempty hn hv hkept =>
    subst hv
    obtain ⟨i, k, hcode⟩ := List.exists_cons_of_ne_nil h.code.ne_nil
    have hidle : i.idles = false := h.busy hn hcode
    obtain ⟨junk, run⟩ := move.quiet hcode (h.masked hn) hidle
    have hi : ∀ b, i ≠ .setIntena b := fun b he => hkept b k (he ▸ hcode)
    rcases exec_here h hp hempty hcode run with ⟨p', hp', hempty', hsw⟩ | ⟨p', hp', hc⟩
    · obtain ⟨S', lvl', top', h'⟩ := h'
      rcases exec_depth h hcode run hn hi with hd | ⟨hup, hsie⟩
      · refine .inl (.runs hp' hempty' hd.1 hd.2 ?_)
        have hc := h.code
        rw [hcode] at hc
        exact ((exec_turns hcode run).code hsw).fresh_intent hsw hi hc.fresh_intent
      · exact .inr ⟨⟨(h'.taken hp' hempty').1, hup, p', hp', hempty'⟩, hsie⟩
    · exact .inl (.saved hp' hc)
  | saved hp hcode =>
    obtain ⟨p', hp'⟩ := Option.ne_none_iff_exists'.mp lives
    rcases step_threads h move hp' with ⟨q, hq, hsame | ⟨hcur, hhart, hadv⟩⟩ | ⟨hnone, _⟩
    · obtain rfl := Option.some.inj (hp.symm.trans hq)
      exact .inl (.saved hp' (hsame.trans hcode))
    · obtain rfl := Option.some.inj (hp.symm.trans hq)
      rw [hcode] at hhart
      obtain ⟨rfl, rfl, rest⟩ := h.leads hhart.symm
      obtain ⟨q, hq, hempty⟩ := h.place.caller hcur
      obtain rfl := Option.some.inj (hp.symm.trans hq)
      obtain ⟨junk, run⟩ := move.quiet hhart.symm h.reads.2 rfl
      obtain rfl := Except.ok.inj run
      refine .inl (.runs hp hempty ?_ rfl ?_)
      · exact Nat.lt_of_lt_of_eq Nat.one_pos h.reads.1.symm
      · exact fun b k' he => (Code.setIntena rest).fresh_intent b k' he
    · rw [hp] at hnone
      cases hnone

/-- A thread that is up has nothing left to remember. -/
theorem below (h : Controlled s) (hm : Remembers l v s) : ¬Surfaced l s := by
  rintro ⟨_, hn, q, hq, hempty⟩
  cases hm with
  | runs _ _ deep =>
    rw [hn] at deep
    cases deep
  | saved hp hcode =>
    obtain ⟨S, lvl, top, h⟩ := h
    obtain rfl := Option.some.inj (hp.symm.trans hq)
    rw [codeOf_hart hempty] at hcode
    obtain ⟨_, rfl, _⟩ := h.leads hcode
    rw [h.reads.1] at hn
    cases hn

end Remembers

theorem Under.reachable {s₀ : Sys T} (h : Under E l s₀ s) (hr : Reachable E reserved s₀) :
    Reachable E reserved s := by
  induction h with
  | start => exact hr
  | step _ move _ _ ih => exact ih.step move

theorem Under.remembers {s₀ : Sys T} (h : Under E l s₀ s) (hr : Reachable E reserved s₀)
    (hm : Remembers l v s₀) : Remembers l v s := by
  induction h with
  | start => exact hm
  | step before move lives deep ih =>
    obtain ⟨S, lvl, top, hh⟩ := (before.reachable hr).controlled
    have hc' := ((before.reachable hr).step move).controlled
    exact (ih.step hh hc' move lives).resolve_right fun hup => deep hup.1

/-- The outermost `push_off`, or the one of a lock, notes the interrupt state. -/
theorem Surfaced.dives (h : Controlled s) (hup : Surfaced l s) (hcode : s.hart.code = i :: k)
    (hi : i = .pushOff ∨ ∃ lock, i = .acquire lock) (run : exec E junk s i k = .ok s') :
    Remembers l s.hart.sie s' := by
  obtain ⟨S, lvl, top, h⟩ := h
  obtain ⟨_, hn, p, hp, hempty⟩ := hup
  have hc := h.code
  rw [hcode] at hc
  rcases hi with rfl | ⟨lock, rfl⟩
  · obtain rfl := Except.ok.inj run
    exact .runs hp hempty (Nat.succ_pos _) (if_pos hn) hc.fresh_intent
  · simp only [exec, bind_ok, Except.ok.injEq] at run
    obtain ⟨s₁, ha, rfl⟩ := run
    obtain ⟨_, rfl⟩ := acquire_eq ha
    exact .runs hp hempty (Nat.succ_pos _) (if_pos hn) hc.fresh_intent

/-- Interrupts are off below the first `push_off`; a thread switches one level
deep; and when it comes up again, whatever ran in between, interrupts are on or
off as they were when it went down. -/
theorem interrupt_discipline (h : Reachable E reserved s) :
    (0 < s.hart.noff → s.hart.sie = false) ∧
    (s.hart.sie = true ∨ s.hart.stack = .user → s.hart.noff = 0) ∧
    (∀ k, s.hart.code = .sched :: k → s.hart.noff = 1) ∧
    ∀ l i k junk s₁ s₂ s₃, Surfaced l s → s.hart.code = i :: k →
      (i = .pushOff ∨ ∃ lock, i = .acquire lock) → exec E junk s i k = .ok s₁ → Under E l s₁ s₂ →
      Step E s₂ s₃ → Surfaced l s₃ → s₃.hart.sie = s.hart.sie := by
  obtain ⟨S, lvl, top, hh⟩ := h.controlled
  refine ⟨hh.masked, fun hopen => ?_, fun k hcode => ?_, ?_⟩
  · by_contra hn
    rcases hopen with hon | hu
    · rw [hh.masked (Nat.pos_of_ne_zero hn)] at hon
      cases hon
    · obtain ⟨_, hcode⟩ := hh.on_user hu
      cases hh.busy (Nat.pos_of_ne_zero hn) hcode
  · obtain ⟨q, rfl, _⟩ := hh.leads hcode
    exact hh.reads.1
  · intro l i k junk s₁ s₂ s₃ hup hcode hi run hunder move hback
    have hr₁ := h.step (.exec junk hcode run)
    have hr₂ := hunder.reachable hr₁
    have hm := hunder.remembers hr₁ (hup.dives ⟨S, lvl, top, hh⟩ hcode hi run)
    obtain ⟨S₂, lvl₂, top₂, hh₂⟩ := hr₂.controlled
    have hc₃ := (hr₂.step move).controlled
    obtain ⟨_, _, p, hp, _⟩ := id hback
    rcases hm.step hh₂ hc₃ move (by rw [hp]; exact Option.some_ne_none p) with hm' | ⟨_, hsie⟩
    · exact absurd hback (hm'.below hc₃)
    · exact hsie

/-- In U-mode no `push_off` is open. -/
theorem interrupt_discipline_user : ∃ s : Sys Nat, Reachable smallEnv none s ∧ s.hart.stack = .user ∧
    s.hart.noff = 0 := by
  obtain ⟨s, d, h⟩ := lone Nat
  have hstack : s.hart.stack = .user := by
    rw [h.hart]
    rfl
  exact ⟨s, h.reachable, hstack, (interrupt_discipline h.reachable).2.1 (.inr hstack)⟩

end Osmium
