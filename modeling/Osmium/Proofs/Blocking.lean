import Osmium.Proofs.Lone
import Osmium.Proofs.Wakeup

namespace Osmium
open Lib Control Site Level Console

variable {T : Type} {E : Env} {s s' : Sys T}

/-- The pieces that an interrupt leaves on top of the code it came into. -/
def Instr.passing : Instr T → Bool
  | .sched | .setIntena _ | .yieldBody | .sretKernel => true
  | i => i.handles

theorem Follows.passing (h : Follows E s i k c) (hi : i.passing = true) :
    ∃ pre, c = pre ++ k ∧ pre.all Instr.passing = true := by
  cases h with
  | plain | noYield => exact ⟨[], rfl, rfl⟩
  | idle acts | drop acts => cases i <;> first | (cases acts; done) | cases hi
  | sched => exact ⟨[.setIntena _], rfl, rfl⟩
  | yieldBody => exact ⟨[.sched], rfl, rfl⟩
  | preempt => exact ⟨.popOff :: Proc.yieldNow, rfl, rfl⟩
  | noPreempt => exact ⟨[.popOff], rfl, rfl⟩
  | _ => cases hi

theorem irq_passing (E : Env) (irq : Irq) : (irq.code (T := T) E).all Instr.passing = true := by
  cases irq with
  | timer => rfl
  | uart bytes =>
    show (bytes.flatMap _).all _ = true
    rw [List.all_flatMap]
    exact List.all_eq_true.mpr fun b _ => rfl

/-- Code of some form, under what interrupts have put on top. -/
def Over (F : List (Instr T) → Prop) (c : List (Instr T)) : Prop :=
  ∃ pre f, c = pre ++ f ∧ pre.all Instr.passing = true ∧ F f

/-- Only the reaper empties a slot, and only a dead thread's. -/
theorem Control.Holds.stays (h : Holds S lvl top s) (move : Step E s s') (hp : s.proc j = some p)
    (hlive : ∀ b, codeOf s p ≠ [.setIntena b, .unreachable]) : ∃ p', s'.proc j = some p' := by
  cases move with
  | exec junk code run =>
    have hh := (exec_turns code run).heirs j
    rw [hp] at hh
    generalize ho : s'.proc j = o at hh
    cases hh with
    | same same =>
      cases o with
      | none => cases same
      | some p' => exact ⟨p', rfl⟩
    | exec piece caller => exact ⟨_, rfl⟩
    | reap piece =>
      subst piece
      have hat := (h.at_reap code).1
      simp only [exec, Proc.reapLoop] at run
      split at run
      · simp only [bind_ok, Except.ok.injEq] at run
        obtain ⟨s₁, hr, rfl⟩ := run
        rcases Proc.reap_eq hr with ⟨rfl, _⟩ | ⟨q, _, _, hq, hz, _⟩
        · exact ⟨p, ho.symm.trans hp⟩
        · obtain rfl := Option.some.inj (hp.symm.trans hq)
          obtain ⟨b, hb⟩ := (hat.contexts j p hp).1 hz
          refine absurd ?_ (hlive b)
          rw [codeOf_ctx (by rw [hb]; exact List.cons_ne_nil _ _), hb]
      · obtain rfl := Except.ok.inj run
        exact ⟨p, ho.symm.trans hp⟩
  | _ => exact ⟨p, hp⟩

/-- Forms that code goes through, up to a way out. -/
structure Forms (E : Env) (s : Sys T) (F : List (Instr T) → Prop)
    (Out : List (Instr T) → List (Instr T) → Prop) : Prop where
  some : ¬F []
  awake : ∀ i k, F (i :: k) → i.idles = false ∧ i ≠ .unreachable
  alive : ∀ b, ¬F [.setIntena b, .unreachable]
  next : ∀ i k c, F (i :: k) → Follows E s i k c → Over F c ∨ Out (i :: k) c

namespace Over

variable {F : List (Instr T) → Prop} {Out : List (Instr T) → List (Instr T) → Prop}

theorem base (h : F c) : Over F c := ⟨[], c, rfl, rfl, h⟩

theorem working (hF : Forms E s F Out) (h : Over F c) (x : Instr T) (hx : x.idles = true) : c ≠ [x] := by
  obtain ⟨pre, f, rfl, _, hf⟩ := h
  intro he
  rcases List.append_eq_singleton_iff.mp he with ⟨rfl, rfl⟩ | ⟨_, rfl⟩
  · rw [(hF.awake x [] hf).1] at hx
    cases hx
  · exact hF.some hf

/-- Interrupts come and go; underneath, the code goes on from form to form. -/
theorem advance (hF : Forms E s F Out) (h : Over F c) (ha : Advances E s c c') : Over F c' ∨ Out c c' := by
  obtain ⟨pre, f, hc, hpre, hf⟩ := id h
  cases ha with
  | interrupt irq on =>
    refine .inl ⟨irq.code E ++ .sretKernel :: pre, f, by simp [hc], ?_, hf⟩
    rw [List.all_append, irq_passing]
    exact hpre
  | run follows =>
    cases pre with
    | nil =>
      obtain rfl : _ = f := hc
      exact hF.next _ _ _ hf follows
    | cons x pre =>
      obtain ⟨rfl, rfl⟩ := List.cons.inj hc
      rw [List.all_cons, Bool.and_eq_true] at hpre
      obtain ⟨pre', rfl, hpre'⟩ := follows.passing hpre.1
      refine .inl ⟨pre' ++ pre, f, (List.append_assoc pre' pre f).symm, ?_, hf⟩
      rw [List.all_append, hpre', hpre.2]
      rfl
  | call | leave => exact absurd rfl (h.working hF .body rfl)
  | userInterrupt | userTrap => exact absurd rfl (h.working hF .umode rfl)

theorem live (hF : Forms E s F Out) (h : Over F c) (b : Bool) : c ≠ [.setIntena b, .unreachable] := by
  obtain ⟨pre, f, rfl, _, hf⟩ := h
  intro he
  rcases pre with _ | ⟨x, _ | ⟨y, pre⟩⟩
  · exact hF.alive b (he ▸ hf)
  · obtain ⟨_, rfl⟩ := List.cons.inj he
    exact (hF.awake _ _ hf).2 rfl
  · obtain ⟨_, rfl⟩ := List.append_eq_nil_iff.mp (List.cons.inj (List.cons.inj he).2).2
    exact hF.some hf

/-- The same for a thread, wherever it is. -/
theorem step (h : Holds S lvl top s) (hF : Forms E s F Out) (hp : s.proc l = some p)
    (ho : Over F (codeOf s p)) (move : Step E s s') :
    ∃ p', s'.proc l = some p' ∧ (Over F (codeOf s' p') ∨ s.current = some l ∧
      codeOf s p = s.hart.code ∧ Out s.hart.code (codeOf s' p')) := by
  obtain ⟨p', hp'⟩ := h.stays move hp (ho.live hF)
  refine ⟨p', hp', ?_⟩
  rcases step_threads h move hp' with ⟨q, hq, hsame | ⟨hcur, hhart, hadv⟩⟩ | ⟨hnone, _⟩
  · obtain rfl := Option.some.inj (hp.symm.trans hq)
    rw [hsame]
    exact .inl ho
  · obtain rfl := Option.some.inj (hp.symm.trans hq)
    rw [hhart] at ho
    exact (ho.advance hF hadv).imp_right fun hout => ⟨hcur, hhart, hout⟩
  · rw [hp] at hnone
    cases hnone

end Over
/-- The way from a failed check to the next one. -/
inductive Sleeps (c : Cause) (i : Instr T) (k : List (Instr T)) : List (Instr T) → Prop where
  | mark : Sleeps c i k (.sleepMark c :: .sched :: .popOff :: i :: k)
  | leave : Sleeps c i k (.sched :: .popOff :: i :: k)
  | asleep (b : Bool) : Sleeps c i k (.setIntena b :: .popOff :: i :: k)
  | unmask : Sleeps c i k (.popOff :: i :: k)
  | again : Sleeps c i k (i :: k)

theorem Sleeps.follows (h : Sleeps c i k (x :: k')) (hf : Follows E s x k' c') :
    Sleeps c i k c' ∨ x = i ∧ k' = k := by
  cases h with
  | mark =>
    cases hf with
    | plain => exact .inl .leave
    | idle acts | drop acts => cases acts
  | leave =>
    cases hf with
    | sched => exact .inl (.asleep _)
    | plain acts | idle acts | drop acts => cases acts
  | asleep b =>
    cases hf with
    | plain => exact .inl .unmask
    | idle acts | drop acts => cases acts
  | unmask =>
    cases hf with
    | plain => exact .inl .again
    | idle acts | drop acts => cases acts
  | again => exact .inr ⟨rfl, rfl⟩

/-- The code of `join`, with `k` to come behind it. -/
inductive Joins (pid : Nat) (k : List (Instr T)) : List (Instr T) → Prop where
  | sleeps (sleeps : Sleeps .exit (.join pid) k c) : Joins pid k c
  | mask : Joins pid k (.pushOff :: .joinCheck pid :: k)
  | check : Joins pid k (.joinCheck pid :: k)

/-- The code of `sleep_ticks` behind its first line. -/
inductive Dozes (target : Nat) (k : List (Instr T)) : List (Instr T) → Prop where
  | sleeps (sleeps : Sleeps .tick (.tickWhile target) k c) : Dozes target k c
  | mask : Dozes target k (.pushOff :: .tickIf target :: .popOff :: .tickWhile target :: k)
  | check : Dozes target k (.tickIf target :: .popOff :: .tickWhile target :: k)

/-- The code of `getchar_blocking`. -/
inductive Listens (r : Reader) (k : List (Instr T)) : List (Instr T) → Prop where
  | sleeps (sleeps : Sleeps .input (.getcharLoop r) k c) : Listens r k c
  | mask : Listens r k (.pushOff :: .acquire .input :: .getcharCheck r :: k)
  | lock : Listens r k (.acquire .input :: .getcharCheck r :: k)
  | check : Listens r k (.getcharCheck r :: k)
  | unlock : Listens r k (.release .input :: .sleepMark .input :: .sched :: .popOff :: .getcharLoop r :: k)

theorem Joins.forms (E : Env) (s : Sys T) (pid : Nat) (k : List (Instr T)) :
    Forms E s (Joins pid k) fun c _ => c = .joinCheck pid :: k ∧ Proc.stillRunning s pid = false := by
  refine ⟨fun h => ?_, fun i k' h => ?_, fun b h => ?_, fun i k' c h hf => ?_⟩
  · cases h with
    | sleeps hs => cases hs
  · cases h with
    | sleeps hs => cases hs <;> exact ⟨rfl, fun hn => by cases hn⟩
    | mask | check => exact ⟨rfl, fun hn => by cases hn⟩
  · cases h with
    | sleeps hs => cases hs
  · cases h with
    | sleeps hs =>
      rcases hs.follows hf with hs' | ⟨rfl, rfl⟩
      · exact .inl (.base (.sleeps hs'))
      · cases hf with
        | join => exact .inl (.base .mask)
        | plain acts | idle acts | drop acts => cases acts
    | mask =>
      cases hf with
      | plain => exact .inl (.base .check)
      | idle acts | drop acts => cases acts
    | check =>
      cases hf with
      | joinSleep => exact .inl (.base (.sleeps .mark))
      | joined _ gone => exact .inr ⟨rfl, gone⟩
      | plain acts | idle acts | drop acts => cases acts

theorem Dozes.forms (E : Env) (s : Sys T) (target : Nat) (k : List (Instr T)) :
    Forms E s (Dozes target k) fun c c' => c = .tickWhile target :: k ∧ c' = k ∧ target ≤ s.ticks := by
  refine ⟨fun h => ?_, fun i k' h => ?_, fun b h => ?_, fun i k' c h hf => ?_⟩
  · cases h with
    | sleeps hs => cases hs
  · cases h with
    | sleeps hs => cases hs <;> exact ⟨rfl, fun hn => by cases hn⟩
    | mask | check => exact ⟨rfl, fun hn => by cases hn⟩
  · cases h with
    | sleeps hs => cases hs
  · cases h with
    | sleeps hs =>
      rcases hs.follows hf with hs' | ⟨rfl, rfl⟩
      · exact .inl (.base (.sleeps hs'))
      · cases hf with
        | tickAgain => exact .inl (.base .mask)
        | tickDone _ late => exact .inr ⟨rfl, rfl, late⟩
        | plain acts | idle acts | drop acts => cases acts
    | mask =>
      cases hf with
      | plain => exact .inl (.base .check)
      | idle acts | drop acts => cases acts
    | check =>
      cases hf with
      | tickSleep => exact .inl (.base (.sleeps .mark))
      | tickOver => exact .inl (.base (.sleeps .unmask))
      | plain acts | idle acts | drop acts => cases acts

theorem Listens.forms (E : Env) (s : Sys T) (r : Reader) (k : List (Instr T)) :
    Forms E s (Listens r k) fun c _ => c = .getcharCheck r :: k ∧ s.input.r ≠ s.input.w := by
  refine ⟨fun h => ?_, fun i k' h => ?_, fun b h => ?_, fun i k' c h hf => ?_⟩
  · cases h with
    | sleeps hs => cases hs
  · cases h with
    | sleeps hs => cases hs <;> exact ⟨rfl, fun hn => by cases hn⟩
    | mask | lock | check | unlock => exact ⟨rfl, fun hn => by cases hn⟩
  · cases h with
    | sleeps hs => cases hs
  · cases h with
    | sleeps hs =>
      rcases hs.follows hf with hs' | ⟨rfl, rfl⟩
      · exact .inl (.base (.sleeps hs'))
      · cases hf with
        | getchar => exact .inl (.base .mask)
        | plain acts | idle acts | drop acts => cases acts
    | mask =>
      cases hf with
      | plain => exact .inl (.base .lock)
      | idle acts | drop acts => cases acts
    | lock =>
      cases hf with
      | plain => exact .inl (.base .check)
      | idle acts | drop acts => cases acts
    | check =>
      cases hf with
      | getcharSleep => exact .inl (.base .unlock)
      | getcharGot _ full => exact .inr ⟨rfl, full⟩
      | plain acts | idle acts | drop acts => cases acts
    | unlock =>
      cases hf with
      | plain => exact .inl (.base (.sleeps .mark))
      | idle acts | drop acts => cases acts

/-- The states of a run from `s₀` on, as long as the thread in slot `l` has not
come back to its caller's code. -/
inductive Busy (E : Env) (l : Nat) (back : List (Instr T) → Prop) (s₀ : Sys T) : Sys T → Prop where
  | start : Busy E l back s₀ s₀
  | step (before : Busy E l back s₀ s₁) (move : Step E s₁ s₂)
      (away : ∀ p, s₂.proc l = some p → ¬back (codeOf s₂ p)) : Busy E l back s₀ s₂

namespace Busy

variable {s₀ : Sys T} {back : List (Instr T) → Prop}

theorem reachable (h : Busy E l back s₀ s) (hr : Reachable E reserved s₀) : Reachable E reserved s := by
  induction h with
  | start => exact hr
  | step _ move _ ih => exact ih.step move

/-- What holds of the thread at the call, and until it is back, holds all the
while; and what then holds when it is back. -/
theorem returns {I Q : Sys T → Prop} (h : Busy E l back s₀ s) (hr : Reachable E reserved s₀) (base : I s₀)
    (next : ∀ S lvl top s s', Reachable E reserved s → Busy E l back s₀ s → Holds S lvl top s → Step E s s' →
      I s → I s' ∨ ∃ p, s'.proc l = some p ∧ back (codeOf s' p) ∧ Q s')
    (not_back : ∀ s p, I s → s.proc l = some p → ¬back (codeOf s p))
    (move : Step E s s') (hp : s'.proc l = some p) (hb : back (codeOf s' p)) : Q s' := by
  have hI : I s := by
    clear move hp hb
    induction h with
    | start => exact base
    | step before move away ih =>
      obtain ⟨res, lost, _, hs⟩ := reachable_sane (before.reachable hr)
      obtain ⟨S, lvl, top, hh⟩ := hs.control
      rcases next S lvl top _ _ (before.reachable hr) before hh move ih with hI | ⟨p, hp, hb, _⟩
      · exact hI
      · exact absurd hb (away p hp)
  obtain ⟨S, lvl, top, hh⟩ := (h.reachable hr).controlled
  rcases next S lvl top _ _ (h.reachable hr) h hh move hI with hI' | ⟨_, _, _, hQ⟩
  · exact absurd hb (not_back s' p hI' hp)
  · exact hQ

end Busy

theorem Over.longer {F : List (Instr T) → Prop} (h : Over F c) (hF : ∀ f, F f → k.length < f.length) : c ≠ k := by
  obtain ⟨pre, f, rfl, _, hf⟩ := h
  intro he
  have hlen := congrArg List.length he
  have hk := hF f hf
  rw [List.length_append] at hlen
  omega

theorem Joins.longer (h : Joins pid k c) : k.length < c.length := by
  cases h with
  | sleeps hs => cases hs <;> simp <;> omega
  | mask | check => simp; try omega

/-- `join` is back only when no process with that pid is left but a zombie. -/
theorem join_returns (hr : Reachable E reserved s₀) (hcur : s₀.current = some l)
    (hcode : s₀.hart.code = .join pid :: k) (busy : Busy E l (· = k) s₀ s) (move : Step E s s')
    (hp : s'.proc l = some p) (hback : codeOf s' p = k) : Proc.stillRunning s' pid = false := by
  -- in the loop, or past it with interrupts still off
  refine busy.returns (I := fun s => ∃ p, s.proc l = some p ∧ (Over (Joins pid k) (codeOf s p) ∨
    p.context.code = [] ∧ s.hart.code = .popOff :: k ∧ s.hart.sie = false ∧
      Proc.stillRunning s pid = false)) (Q := fun s => Proc.stillRunning s pid = false) hr ?_
    (fun S lvl top s s' _ _ h move hI => ?_) (fun s p hI hp hb => ?_) move hp hback
  · obtain ⟨res, lost, _, hs⟩ := reachable_sane hr
    obtain ⟨S, lvl, top, h⟩ := hs.control
    obtain ⟨rfl, _⟩ := h.leads hcode
    obtain ⟨p, hp, hempty⟩ := h.place.caller hcur
    refine ⟨p, hp, .inl (.base ?_)⟩
    rw [codeOf_hart hempty, hcode]
    exact .sleeps .again
  · obtain ⟨p, hp, ho | ⟨hempty, hc, hoff, hgone⟩⟩ := hI
    · obtain ⟨p', hp', ho' | ⟨hcur, _, hc, hgone⟩⟩ := ho.step h (Joins.forms E s pid k) hp move
      · exact .inl ⟨p', hp', .inl ho'⟩
      · have hcode := h.code
        rw [hc] at hcode
        cases hcode with
        | joinCheck =>
          obtain ⟨q, hq, hempty⟩ := h.place.caller hcur
          obtain ⟨junk, run⟩ := move.quiet hc h.reads.2.1 rfl
          have hs' : s' = s.goto (.popOff :: k) := by
            rw [← Except.ok.inj run]
            unfold Proc.joinCheck
            rw [hgone]
            rfl
          subst hs'
          exact .inl ⟨q, hq, .inr ⟨hempty, rfl, h.reads.2.1, hgone⟩⟩
    · obtain ⟨hnext, junk, run⟩ := move.plain hc hoff rfl
      simp only [exec, bind_ok, Except.ok.injEq] at run
      obtain ⟨h', _, rfl⟩ := run
      exact .inr ⟨p, hp, codeOf_hart hempty, hgone⟩
  · obtain ⟨q, hq, ho | ⟨hempty, hc, _⟩⟩ := hI
    · obtain rfl := Option.some.inj (hq.symm.trans hp)
      exact ho.longer (fun f hf => hf.longer) hb
    · obtain rfl := Option.some.inj (hq.symm.trans hp)
      rw [codeOf_hart hempty, hc] at hb
      exact absurd (congrArg List.length hb) (by simp)

theorem Dozes.longer (h : Dozes target k c) : k.length < c.length := by
  cases h with
  | sleeps hs => cases hs <;> simp <;> omega
  | mask | check => simp; try omega

/-- `sleep_ticks` is back only when the ticks asked for have come. -/
theorem sleep_ticks_returns (hr : Reachable E reserved s) (hcur : s.current = some l)
    (hcode : s.hart.code = .sleepTicks n :: k) (run : exec E junk s (.sleepTicks n) k = .ok s₀)
    (busy : Busy E l (· = k) s₀ s₁) (move : Step E s₁ s₂)
    (hp : s₂.proc l = some p) (hback : codeOf s₂ p = k) : s.ticks + n ≤ s₂.ticks := by
  refine busy.returns (I := fun s' => ∃ p, s'.proc l = some p ∧ Over (Dozes (s.ticks + n) k) (codeOf s' p))
    (Q := fun s' => s.ticks + n ≤ s'.ticks) (hr.step (.exec junk hcode run)) ?_
    (fun S lvl top s₁ s₂ _ _ h move hI => ?_) (fun s₁ p hI hp hb => ?_) move hp hback
  · obtain ⟨res, lost, _, hs⟩ := reachable_sane hr
    obtain ⟨S, lvl, top, h⟩ := hs.control
    obtain ⟨rfl, _⟩ := h.leads hcode
    obtain ⟨p, hp, hempty⟩ := h.place.caller hcur
    simp only [exec, Timer.sleepTicks] at run
    split at run
    · obtain rfl := Except.ok.inj run
      refine ⟨p, hp, .base ?_⟩
      rw [codeOf_hart hempty]
      exact .sleeps .again
    · cases run
  · obtain ⟨p, hp, ho⟩ := hI
    obtain ⟨p', hp', ho' | ⟨_, _, hc, hk, hlate⟩⟩ := ho.step h (Dozes.forms E s₁ _ k) hp move
    · exact .inl ⟨p', hp', ho'⟩
    · refine .inr ⟨p', hp', hk, ?_⟩
      cases move with
      | exec junk code run' =>
        obtain ⟨rfl, rfl⟩ := List.cons.inj (code.symm.trans hc)
        rw [(exec_turns code run').ticks fun hn => by cases hn]
        exact hlate
      | _ => exact hlate
  · obtain ⟨q, hq, ho⟩ := hI
    obtain rfl := Option.some.inj (hq.symm.trans hp)
    exact ho.longer (fun f hf => hf.longer) hb

theorem Over.head {F : List (Instr T) → Prop} (h : Over F (x :: c)) : x.passing = true ∨ F (x :: c) := by
  obtain ⟨pre, f, hc, hpre, hf⟩ := h
  cases pre with
  | nil => exact .inr (hc ▸ hf)
  | cons y pre =>
    obtain ⟨rfl, rfl⟩ := List.cons.inj hc
    exact .inl (Bool.and_eq_true _ _ ▸ hpre).1

/-- The way out of `getchar_blocking` with a byte. -/
inductive Gets (r : Reader) (b : UInt8) (k : List (Instr T)) : List (Instr T) → Prop where
  | unlock : Gets r b k (.release .input :: .popOff :: .gotChar r b :: k)
  | unmask : Gets r b k (.popOff :: .gotChar r b :: k)

theorem Gets.forms (E : Env) (s : Sys T) (r : Reader) (b : UInt8) (k : List (Instr T)) :
    Forms E s (Gets r b k) fun _ c => c = .gotChar r b :: k := by
  refine ⟨(fun h => by cases h), fun i k' h => ?_, (fun b h => by cases h), fun i k' c h hf => ?_⟩
  · cases h <;> exact ⟨rfl, fun hn => by cases hn⟩
  · cases h with
    | unlock =>
      cases hf with
      | plain => exact .inl (.base .unmask)
      | idle acts | drop acts => cases acts
    | unmask =>
      cases hf with
      | plain => exact .inr rfl
      | idle acts | drop acts => cases acts

/-- `getchar_blocking` is back only with a byte that it took out of the ring. -/
theorem getchar_returns (hr : Reachable E reserved s₀) (hcur : s₀.current = some l)
    (hcode : s₀.hart.code = .getcharLoop r :: k)
    (busy : Busy E l (fun c => ∃ b, c = .gotChar r b :: k) s₀ s) (move : Step E s s')
    (hp : s'.proc l = some p) (hback : codeOf s' p = .gotChar r b :: k) :
    ∃ s₁ s₂, Busy E l (fun c => ∃ b, c = .gotChar r b :: k) s₀ s₁ ∧ Step E s₁ s₂ ∧
      s₁.current = some l ∧ pending s₁.input = b :: pending s₂.input := by
  let took (b : UInt8) : Prop := ∃ s₁ s₂, Busy E l (fun c => ∃ b, c = .gotChar r b :: k) s₀ s₁ ∧
    Step E s₁ s₂ ∧ s₁.current = some l ∧ pending s₁.input = b :: pending s₂.input
  -- in the loop, or on the way out with a byte
  refine busy.returns (I := fun s => ∃ p, s.proc l = some p ∧ (Over (Listens r k) (codeOf s p) ∨
      ∃ b, took b ∧ Over (Gets r b k) (codeOf s p)))
    (Q := fun s => ∀ p b, s.proc l = some p → codeOf s p = .gotChar r b :: k → took b) hr ?_
    (fun S lvl top s s' hr busy h move hI => ?_) (fun s p hI hp hb => ?_) move hp ⟨b, hback⟩ p b hp hback
  · obtain ⟨res, lost, _, hs⟩ := reachable_sane hr
    obtain ⟨S, lvl, top, h⟩ := hs.control
    have hplace : Place thread top s₀ := by
      cases r with
      | kernel =>
        obtain rfl := h.leads hcode
        exact h.place
      | user =>
        obtain ⟨rfl, _⟩ := h.leads hcode
        exact h.place
    obtain ⟨p, hp, hempty⟩ := hplace.caller hcur
    refine ⟨p, hp, .inl (.base ?_)⟩
    rw [codeOf_hart hempty, hcode]
    exact .sleeps .again
  · obtain ⟨p, hp, ho | ⟨b, htook, ho⟩⟩ := hI
    · obtain ⟨p', hp', ho' | ⟨hcur, _, hc, hfull⟩⟩ := ho.step h (Listens.forms E s r k) hp move
      · exact .inl ⟨p', hp', .inl ho'⟩
      · have hoff : Place thread top s ∧ s.hart.sie = false := by
          have hcode := h.code
          rw [hc] at hcode
          cases hcode <;> exact ⟨h.place, h.reads.2.1⟩
        obtain ⟨q, hq, hempty⟩ := hoff.1.caller hcur
        obtain ⟨junk, run⟩ := move.quiet hc hoff.2 rfl
        have hs' : s' = getcharCheck s r k := (Except.ok.inj run).symm
        rcases getcharCheck_eq s r k with ⟨he, _⟩ | ⟨_, heq⟩
        · exact absurd he hfull
        · rw [heq] at hs'
          have htook : took (s.input.buf (s.input.r % inputCap)) := by
            refine ⟨s, s', busy, move, hcur, ?_⟩
            rw [hs']
            exact (reachable_ring hr).pending_pop hfull
          refine .inl ⟨q, by rw [hs']; exact hq, .inr ⟨_, htook, .base ?_⟩⟩
          rw [codeOf_hart hempty, hs']
          exact .unlock
    · obtain ⟨p', hp', ho' | ⟨_, _, hc⟩⟩ := ho.step h (Gets.forms E s r b k) hp move
      · exact .inl ⟨p', hp', .inr ⟨b, htook, ho'⟩⟩
      · refine .inr ⟨p', hp', ⟨b, hc⟩, fun q c hq hcq => ?_⟩
        obtain rfl := Option.some.inj (hq.symm.trans hp')
        obtain ⟨heq, _⟩ := List.cons.inj (hc.symm.trans hcq)
        cases heq
        exact htook
  · obtain ⟨c, hb⟩ := hb
    obtain ⟨q, hq, hcode⟩ := hI
    obtain rfl := Option.some.inj (hq.symm.trans hp)
    rw [hb] at hcode
    rcases hcode with ho | ⟨_, _, ho⟩
    · rcases ho.head with hp | hf
      · cases hp
      · cases hf with
        | sleeps hs => cases hs
    · rcases ho.head with hp | hf
      · cases hp
      · cases hf

/-- The waits for an exit, a tick and a byte, in every run: outside of handlers
and critical sections a thread that sleeps still has to, and a wait is over only
when what it waits for has come. -/
theorem no_lost_wakeup (h : Reachable E reserved s) :
    (s.hart.sie = true ∨ s.hart.code = [.umode] → ∀ j p ch b k, s.proc j = some p →
      p.state = .sleeping ch →
      (∀ pid, codeOf s p = .setIntena b :: .popOff :: .join pid :: k →
        ∃ i q, s.proc i = some q ∧ q.pid = pid ∧ q.state ≠ .zombie) ∧
      (∀ target, codeOf s p = .setIntena b :: .popOff :: .tickWhile target :: k → s.ticks < target) ∧
      ∀ r, codeOf s p = .setIntena b :: .popOff :: .getcharLoop r :: k → pending s.input = []) ∧
    (∀ l pid k s₁ s₂ p, s.current = some l → s.hart.code = .join pid :: k → Busy E l (· = k) s s₁ →
      Step E s₁ s₂ → s₂.proc l = some p → codeOf s₂ p = k →
      ∀ i q, s₂.proc i = some q → q.pid = pid → q.state = .zombie) ∧
    (∀ l n k junk s₀ s₁ s₂ p, s.current = some l → s.hart.code = .sleepTicks n :: k →
      exec E junk s (.sleepTicks n) k = .ok s₀ → Busy E l (· = k) s₀ s₁ → Step E s₁ s₂ →
      s₂.proc l = some p → codeOf s₂ p = k → s.ticks + n ≤ s₂.ticks) ∧
    ∀ l r k s₁ s₂ p b, s.current = some l → s.hart.code = .getcharLoop r :: k →
      Busy E l (fun c => ∃ b, c = .gotChar r b :: k) s s₁ → Step E s₁ s₂ → s₂.proc l = some p →
      codeOf s₂ p = .gotChar r b :: k →
      ∃ u v, Busy E l (fun c => ∃ b, c = .gotChar r b :: k) s u ∧ Step E u v ∧ u.current = some l ∧
        pending u.input = b :: pending v.input := by
  refine ⟨fun hopen j p ch b k hp hs => ?_, ?_, ?_, ?_⟩
  · obtain ⟨res, lost, _, hsane⟩ := reachable_sane h
    obtain ⟨S, lvl, top, hh⟩ := hsane.control
    obtain ⟨i, hb, r, hr⟩ := (reachable_wakeful h).dormant j p ch hp hs
    have hnone : ∀ chan, ¬Pending chan s := by
      intro chan hpend
      rcases hopen with hon | hu
      · rw [hpend.masked hh] at hon
        cases hon
      · exact hpend.in_kernel hu
    have hdue : ∀ x, codeOf s p = .setIntena b :: .popOff :: x :: k → x.waits ≠ none → x.due s := by
      intro x hx hw
      rw [hx] at hr
      rcases hr with hr | ⟨_, hr⟩ <;> cases hr
      cases hb with
      | cause c waits why => exact why.resolve_right (hnone _)
      | sem a => exact absurd rfl hw
    refine ⟨fun pid hc => ?_, fun target hc => hdue _ hc (fun hn => by cases hn), fun rd hc => ?_⟩
    · exact (stillRunning_iff s pid).mp (hdue _ hc (fun hn => by cases hn))
    · exact pending_nil.mpr (Nat.le_of_eq (hdue _ hc (fun hn => by cases hn)).symm)
  · intro l pid k s₁ s₂ p hcur hcode busy move hp hback i q hq hpid
    by_contra hz
    have hgone := join_returns h hcur hcode busy move hp hback
    rw [(stillRunning_iff s₂ pid).mpr ⟨i, q, hq, hpid, hz⟩] at hgone
    cases hgone
  · intro l n k junk s₀ s₁ s₂ p hcur hcode run busy move hp hback
    exact sleep_ticks_returns h hcur hcode run busy move hp hback
  · intro l r k s₁ s₂ p b hcur hcode busy move hp hback
    exact getchar_returns h hcur hcode busy move hp hback

/-- The only process sleeps until the first tick, and there has been none. -/
theorem no_lost_wakeup_nap : ∃ (s : Sys Nat) (p : Process Nat) (k : List (Instr Nat)),
    Reachable smallEnv none s ∧ s.hart.sie = true ∧ s.proc 0 = some p ∧ p.state = .sleeping tickChan ∧
    codeOf s p = .setIntena false :: .popOff :: .tickWhile 1 :: k ∧ s.ticks < 1 := by
  obtain ⟨s, d, h⟩ := lone Nat
  obtain ⟨hr, hrun⟩ := h.asks
  obtain ⟨s₁, p, hruns, hon, hp, hst, hcode⟩ := h.sleeps
  have hr₁ := (hr.step (.exec _ rfl hrun)).steps hruns.steps
  exact ⟨s₁, p, _, hr₁, hon, hp, hst, hcode,
    ((no_lost_wakeup hr₁).1 (.inl hon) 0 p _ _ _ hp hst).2.1 1 hcode⟩

end Osmium
