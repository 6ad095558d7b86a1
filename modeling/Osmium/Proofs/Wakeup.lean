import Osmium.Proofs.SchedState
import Osmium.Proofs.Console
import Osmium.Proofs.Runs

namespace Osmium
open Lib Control Site Level Console

variable {T : Type} {E : Env} {s s' : Sys T}

namespace Instr

/-- The pieces of an interrupt handler that do not leave it. -/
def handles : Instr T → Bool
  | .acquire _ | .release _ | .ringPush _ | .pushOff | .popOff | .wakeAll _ | .onTick | .tickCheck => true
  | _ => false

def marks : Instr T → Bool
  | .sleepMark _ => true
  | _ => false

def unlocks : Instr T → Bool
  | .release .input => true
  | _ => false

/-- What a thread that goes on with this piece was waiting for. -/
def waits : Instr T → Option Cause
  | .join _ => some .exit
  | .tickWhile _ => some .tick
  | .getcharLoop _ => some .input
  | _ => none

/-- Why it still has to wait. -/
def due (s : Sys T) : Instr T → Prop
  | .join pid => Proc.stillRunning s pid = true
  | .tickWhile target => s.ticks < target
  | .getcharLoop _ => s.input.r = s.input.w
  | _ => True

end Instr

/-- The rest of an interrupt handler. -/
def inHandler : List (Instr T) → Bool
  | [] => false
  | .sretKernel :: _ => true
  | .trapRet _ :: _ => true
  | i :: k => i.handles && inHandler k

/-- Code that is about to sleep, having checked. -/
def lying : List (Instr T) → Bool
  | [] => false
  | i :: k => i.marks || (i.unlocks && k.head?.any Instr.marks)

theorem lying_nil : lying ([] : List (Instr T)) = false := rfl

theorem lying_cons (i : Instr T) (k : List (Instr T)) :
    lying (i :: k) = (i.marks || (i.unlocks && k.head?.any Instr.marks)) := rfl

/-- What stands behind a piece: a wakeup behind every change that sleepers wait
for, and the way back to the check behind every sleep. -/
def Instr.tended (E : Env) (k : List (Instr T)) : Instr T → Prop
  | .onTick => inHandler k = true ∧ ∃ r, k = Proc.wakeup tickChan ++ r
  | .ringPush _ => inHandler k = true ∧ ∃ r, k = .release .input :: Proc.wakeup E.inputAddr ++ r
  | .exitMark => ∃ r, k = Proc.wakeup exitChan ++ r
  | .sleepMark cause => ∃ i r, k = .sched :: .popOff :: i :: r ∧ i.waits = some cause
  | .tickIf target => ∃ r, k = .popOff :: .tickWhile target :: r
  | .release .input => ∀ k', k ≠ .release .input :: k'
  | .sretKernel => True
  | _ => lying k = false

def Tended (E : Env) : List (Instr T) → Prop
  | [] => True
  | i :: k => i.tended E k ∧ Tended E k

/-- Only letting go of the ring comes between a check and its sleep. -/
theorem Tended.before_sleep {k : List (Instr T)} (h : Tended E (i :: k)) (hl : lying k = true)
    (hi : i ≠ .sretKernel) : i = .release .input ∧ ∃ c r, k = .sleepMark c :: r := by
  obtain ⟨hk, _⟩ := h
  cases i with
  | sretKernel => exact absurd rfl hi
  | onTick | ringPush =>
    obtain ⟨_, r, rfl⟩ := hk
    cases hl
  | exitMark | tickIf =>
    obtain ⟨r, rfl⟩ := hk
    cases hl
  | sleepMark =>
    obtain ⟨i, r, rfl, _⟩ := hk
    cases hl
  | release l =>
    cases l with
    | input =>
      refine ⟨rfl, ?_⟩
      cases k with
      | nil => cases hl
      | cons x k =>
        cases x with
        | sleepMark c => exact ⟨c, k, rfl⟩
        | release l =>
          cases l with
          | input => exact absurd rfl (hk _)
          | _ => cases hl
        | _ => cases hl
    | _ =>
      rw [show lying k = false from hk] at hl
      cases hl
  | _ =>
    rw [show lying k = false from hk] at hl
    cases hl

/-- Handlers run with interrupts off. -/
theorem Control.Code.handling {c : List (Instr T)} (h : Code kroot top S lvl c)
    (hh : inHandler c = true) : ∀ d q, lvl = nest d q → q = false := by
  induction h with
  | pushOff _ _ ih | popOff _ _ ih | acquire _ _ ih | release _ _ ih | tickCheck _ _ ih | wakeAll _ ih
  | onTick _ _ ih | ringPush _ _ ih =>
    rintro d q ⟨⟩
    exact ih hh _ _ rfl
  | trapRet | sretKernel =>
    rintro d q ⟨⟩
    rfl
  | popHeld => exact fun d q he => by cases he
  | _ => cases hh

section Tended

attribute [local simp] Tended Instr.tended lying_nil lying_cons Instr.marks Instr.unlocks

theorem Follows.tended (h : Follows E s i k c) (ht : Tended E (i :: k)) : Tended E c := by
  cases h with
  | plain acts => exact ht.2
  | idle idles => exact ht
  | drop | exit | schedLoop | reapNext | reapDone | pickNone | pick | trapBreak | trapServed | trapKill
  | read | fork | forkNone =>
    simp [Proc.exitCode, Proc.wakeup, Proc.afterSwitch, Proc.publishing]
  | trapCall calls =>
    cases calls <;> simp [Proc.yieldNow]
  | fetchEntry =>
    rename_i p _
    cases p.entry <;> simp [Proc.entryCode]
  | execCommit =>
    rename_i p _ _ _
    cases hu : p.userTable <;> simp [Proc.execRest, hu]
  | tickSleep target =>
    obtain ⟨⟨r, rfl⟩, hk⟩ := ht
    exact ⟨⟨_, r, rfl, rfl⟩, rfl, hk⟩
  | _ =>
    obtain ⟨hi, hk⟩ := ht
    simp_all [Instr.waits, Proc.yieldNow, Proc.sleep, Console.getcharCode, Sync.waitCode, Proc.publishing]

theorem Tended.irq (irq : Irq) {k : List (Instr T)} (hk : Tended E k) (hh : inHandler k = true)
    (hl : lying k = false) : Tended E (irq.code E ++ k) := by
  cases irq with
  | timer => simp [Irq.code, Timer.handler, inHandler, Instr.handles, Proc.wakeup, hk, hh, hl]
  | uart bytes =>
    suffices h : Tended E (Irq.code E (.uart bytes) ++ k) ∧ inHandler (Irq.code E (.uart bytes) ++ k) = true ∧
        lying (Irq.code E (.uart bytes) ++ k) = false from h.1
    induction bytes with
    | nil => exact ⟨hk, hh, hl⟩
    | cons b bytes ih =>
      obtain ⟨h1, h2, h3⟩ := ih
      simp only [Irq.code, List.flatMap_cons, List.append_assoc] at h1 h2 h3 ⊢
      simp [Console.onInput, inHandler, Instr.handles, Proc.wakeup, h1, h2, h3]

theorem Tended.op (op : Op T) {k : List (Instr T)} (hk : Tended E k) (hl : lying k = false) :
    Tended E (op.code E ++ k) := by
  cases op <;> simp [Op.code, Proc.yieldNow, Sync.signal, Sync.send, Sync.recv, Proc.wakeup, hk, hl]

theorem tended_kept (E : Env) : Kept E (Tended (T := T) E) where
  nil := trivial
  boot := ⟨rfl, trivial⟩
  bootCall op _ := Tended.op op ⟨rfl, trivial⟩ rfl
  bootDone := ⟨rfl, trivial⟩
  entry := by simp [Proc.threadEntry]
  away _ _ h := h.2
  run s c c' h hc := by
    cases h with
    | run follows => exact follows.tended hc
    | call op => exact Tended.op op hc rfl
    | leave => exact ⟨rfl, trivial⟩
    | interrupt irq on => exact Tended.irq irq ⟨trivial, hc⟩ rfl rfl
    | userInterrupt irq => exact Tended.irq irq ⟨rfl, trivial⟩ rfl rfl
    | userTrap => exact ⟨rfl, trivial⟩

end Tended

/-- With interrupts off a piece without branches is followed by the next one. -/
theorem Step.plain (move : Step E s s') (code : s.hart.code = i :: k) (off : s.hart.sie = false)
    (hp : i.plain = true) : s'.hart.code = k ∧ ∃ junk, Osmium.exec E junk s i k = .ok s' := by
  have hidle : i.idles = false := by cases i <;> first | rfl | cases hp
  have hsw : i.switches = false := by cases i <;> first | rfl | cases hp
  obtain ⟨junk, run⟩ := move.quiet code off hidle
  refine ⟨?_, junk, run⟩
  have hfollow := (exec_turns code run).code hsw
  generalize s'.hart.code = c at hfollow
  cases hfollow with
  | plain => rfl
  | idle acts =>
    rw [hidle] at acts
    cases acts
  | drop acts => cases i <;> first | (cases hp; done) | cases acts
  | _ => cases hp

/-- A wakeup on its way, with nothing that could come in between. -/
inductive Pending (chan : Nat) (s : Sys T) : Prop where
  | wake (code : s.hart.code = .wakeAll chan :: r) : Pending chan s
  | mask (code : s.hart.code = .pushOff :: .wakeAll chan :: r) (off : s.hart.sie = false) : Pending chan s
  | unlock (code : s.hart.code = .release .input :: .pushOff :: .wakeAll chan :: r)
      (off : s.hart.sie = false) (stays : s.hart.intena = false) : Pending chan s

namespace Pending

theorem masked (h : Holds S lvl top s) (hp : Pending chan s) : s.hart.sie = false := by
  cases hp with
  | wake code =>
    obtain ⟨d, q, rfl⟩ := h.leads code
    exact h.reads.2.1
  | mask _ off => exact off
  | unlock _ off => exact off

theorem in_kernel (hp : Pending chan s) : s.hart.code ≠ [.umode] := by
  intro hu
  cases hp with
  | wake code | mask code | unlock code =>
    rw [hu] at code
    cases code

/-- It stays on its way until it wakes. -/
theorem step (hp : Pending chan s) (move : Step E s s') :
    Pending chan s' ∨ ∃ r, s.hart.code = .wakeAll chan :: r := by
  cases hp with
  | wake code => exact .inr ⟨_, code⟩
  | mask code off =>
    obtain ⟨junk, run⟩ := move.quiet code off rfl
    obtain rfl := Except.ok.inj run
    exact .inl (.wake rfl)
  | unlock code off stays =>
    obtain ⟨junk, run⟩ := move.quiet code off rfl
    simp only [exec, bind_ok, Except.ok.injEq] at run
    obtain ⟨s₁, hr, rfl⟩ := run
    obtain ⟨_, hpop, rfl⟩ := release_eq hr
    refine .inl (.mask rfl ?_)
    obtain ⟨_, _, rfl⟩ := popOff_eq hpop
    show (if s.hart.noff = 1 ∧ s.hart.intena = true then true else s.hart.sie) = false
    rw [stays, if_neg fun hn => by cases hn.2]
    exact off

end Pending

/-- A sleeping thread goes on with this piece. -/
def Rests (c : List (Instr T)) (i : Instr T) : Prop :=
  ∃ r, c = .sched :: .popOff :: i :: r ∨ ∃ b, c = .setIntena b :: .popOff :: i :: r

/-- Why a thread sleeps on a channel: it still has to wait, or its wakeup is on
its way. -/
inductive Bides (E : Env) (s : Sys T) : Nat → Instr T → Prop where
  | cause (c : Cause) (waits : i.waits = some c) (why : i.due s ∨ Pending (c.chan E) s) :
      Bides E s (c.chan E) i
  | sem (a : SemId) : Bides E s (Sync.chanOf E a) (.wait a)

/-- No wakeup is lost. -/
structure Wakeful (E : Env) (s : Sys T) : Prop where
  poised : ∀ c i r, s.hart.code = .sleepMark c :: .sched :: .popOff :: i :: r ∨
    s.hart.code = .release .input :: .sleepMark c :: .sched :: .popOff :: i :: r →
    i.waits = some c → i.due s
  dormant : ∀ j p ch, s.proc j = some p → p.state = .sleeping ch →
    ∃ i, Bides E s ch i ∧ Rests (codeOf s p) i

theorem stillRunning_iff (s : Sys T) (pid : Nat) : Proc.stillRunning s pid = true ↔
    ∃ j p, s.proc j = some p ∧ p.pid = pid ∧ p.state ≠ .zombie := by
  unfold Proc.stillRunning
  simp only [List.any_eq_true, Option.any_eq_true, decide_eq_true_eq]
  constructor
  · rintro ⟨o, ho, p, rfl, hp⟩
    obtain ⟨j, hj⟩ := List.getElem?_of_mem ho
    exact ⟨j, p, by rw [Sys.proc, hj]; rfl, hp⟩
  · rintro ⟨j, p, hj, hp⟩
    exact ⟨some p, List.mem_of_getElem? (proc_slot hj), p, rfl, hp⟩

/-- A process that has not exited goes on living, or it is just exiting. -/
theorem stillRunning_step (h : Holds S lvl top s) (ht : Tended E s.hart.code) (move : Step E s s')
    (hr : Proc.stillRunning s pid = true) : Proc.stillRunning s' pid = true ∨ Pending exitChan s' := by
  obtain ⟨j, p, hp, rfl, hz⟩ := (stillRunning_iff s pid).mp hr
  have hpass := step_passes h move j
  rw [hp] at hpass
  generalize ho : s'.proc j = o at hpass
  cases hpass with
  | keep same =>
    cases o with
    | none => cases same
    | some q =>
      obtain ⟨hpid, hst⟩ := Prod.mk.inj (Option.some.inj same)
      exact .inl ((stillRunning_iff _ _).mpr ⟨j, q, ho, hpid, by rw [hst]; exact hz⟩)
  | pick | wake => exact .inl ((stillRunning_iff _ _).mpr ⟨j, _, ho, rfl, fun hn => by cases hn⟩)
  | reap _ was => exact absurd was hz
  | give code piece =>
    cases piece with
    | yieldBody | sleepMark | semCheck =>
      exact .inl ((stillRunning_iff _ _).mpr ⟨j, _, ho, rfl, fun hn => by cases hn⟩)
    | exitMark =>
      rw [code] at ht
      obtain ⟨⟨r, rfl⟩, _⟩ := ht
      obtain ⟨_, q, rfl⟩ := h.leads code
      obtain ⟨hnext, junk, run⟩ := move.plain code h.reads.2.1 rfl
      exact .inr (.mask hnext (((exec_turns code run).irq rfl).1.trans h.reads.2.1))

/-- The clock stands still, or the handler has just counted a tick. -/
theorem ticks_step (h : Holds S lvl top s) (ht : Tended E s.hart.code) (move : Step E s s') :
    s'.ticks = s.ticks ∨ Pending tickChan s' := by
  cases move with
  | exec junk code run =>
    rename_i i k
    by_cases hi : i = .onTick
    · subst hi
      rw [code] at ht
      obtain ⟨⟨hh, r, rfl⟩, _⟩ := ht
      obtain rfl := Except.ok.inj run
      refine .inr (.mask rfl ?_)
      obtain ⟨q, rfl, rest⟩ := h.leads code
      obtain rfl := rest.handling hh _ _ rfl
      exact h.reads.2
    · exact .inl ((exec_turns code run).ticks hi)
  | _ => exact .inl rfl

/-- An empty ring stays empty, or the handler has just put in a byte. -/
theorem ring_step (h : Holds S lvl top s) (ht : Tended E s.hart.code) (move : Step E s s')
    (he : s.input.r = s.input.w) : s'.input.r = s'.input.w ∨ Pending E.inputAddr s' := by
  cases move with
  | exec junk code run =>
    rename_i i k
    by_cases hi : i.reads = false
    · rw [(exec_turns code run).input hi]
      exact .inl he
    · cases i with
      | ringPush byte =>
        rw [code] at ht
        obtain ⟨⟨hh, r, rfl⟩, _⟩ := ht
        obtain ⟨d, q, rfl, rest⟩ := h.leads code
        obtain rfl := rest.handling hh _ _ rfl
        obtain ⟨_, _, hl⟩ := rest.leads
        cases hl
        obtain ⟨_, hoff, hstays⟩ := h.reads
        obtain ⟨hnext, _⟩ := Step.plain (.exec junk code run) code hoff rfl
        obtain ⟨hsie, _, hintena⟩ := (exec_turns code run).irq rfl
        exact .inr (.unlock hnext (hsie.trans hoff) (hintena.trans hstays))
      | getcharCheck r =>
        obtain rfl := Except.ok.inj run
        rcases getcharCheck_eq s r k with ⟨_, hc⟩ | ⟨hne, _⟩
        · rw [hc]
          exact .inl he
        · exact absurd he hne
      | gotChar r byte =>
        cases r with
        | kernel => exact absurd rfl hi
        | user f ptr cap buf =>
          rw [Syscall.readRest_input run, Syscall.drain_empty he]
          exact .inl he
      | _ => exact absurd rfl hi
  | _ => exact .inl he

theorem Instr.due_step (h : Holds S lvl top s) (ht : Tended E s.hart.code) (move : Step E s s')
    {i : Instr T} (hw : i.waits = some c) (hd : i.due s) : i.due s' ∨ Pending (c.chan E) s' := by
  cases i with
  | join pid =>
    obtain rfl := Option.some.inj hw
    exact stillRunning_step h ht move hd
  | tickWhile target =>
    obtain rfl := Option.some.inj hw
    refine (ticks_step h ht move).imp_left fun he => ?_
    show s'.ticks < target
    rw [he]
    exact hd
  | getcharLoop r =>
    obtain rfl := Option.some.inj hw
    exact ring_step h ht move hd
  | _ => cases hw

/-- As long as a thread sleeps on, it has a reason. -/
theorem Bides.step (h : Holds S lvl top s) (ht : Tended E s.hart.code) (move : Step E s s')
    (hb : Bides E s ch i) : Bides E s' ch i ∨ ∃ r, s.hart.code = .wakeAll ch :: r := by
  cases hb with
  | cause c waits why =>
    rcases why with hdue | hpend
    · exact .inl (.cause c waits (Instr.due_step h ht move waits hdue))
    · exact (hpend.step move).imp_left fun hp => .cause c waits (.inr hp)
  | sem a => exact .inl (.sem a)

namespace Wakeful

/-- Code lies down only behind a check. -/
theorem checked (h : Follows E s i k c) (ht : Tended E (i :: k)) (hi : i ≠ .sretKernel)
    (hc : c = .sleepMark cause :: .sched :: .popOff :: x :: r ∨
      c = .release .input :: .sleepMark cause :: .sched :: .popOff :: x :: r) :
    x.due s ∨ i = .release .input ∧ k = .sleepMark cause :: .sched :: .popOff :: x :: r := by
  have hl : lying c = true := by rcases hc with rfl | rfl <;> rfl
  cases h with
  | plain acts =>
    obtain ⟨rfl, c', r', rfl⟩ := ht.before_sleep hl hi
    rcases hc with hc | hc
    · exact .inr ⟨rfl, hc⟩
    · cases hc
  | idle acts =>
    rcases hc with hc | hc <;> obtain ⟨rfl, _⟩ := List.cons.inj hc <;> cases acts
  | joinSleep pid there =>
    rcases hc with hc | hc <;> cases hc
    exact .inl there
  | tickSleep target early =>
    obtain ⟨⟨r', rfl⟩, _⟩ := ht
    rcases hc with hc | hc <;> cases hc
    exact .inl early
  | getcharSleep rd empty =>
    rcases hc with hc | hc <;> cases hc
    exact .inl empty
  | noYield | tickDone =>
    rw [show lying k = false from ht.1] at hl
    cases hl
  | tickOver =>
    obtain ⟨⟨r', rfl⟩, _⟩ := ht
    cases hl
  | trapCall calls => cases calls <;> cases hl
  | fetchEntry =>
    rename_i p _
    cases he : p.entry <;> rw [he] at hl <;> cases hl
  | _ => cases hl

/-- Before a thread sleeps it has checked. -/
theorem poised_step (hw : Wakeful E s) (h : Holds S lvl top s) (ht : Tended E s.hart.code)
    (move : Step E s s') (hcode : s'.hart.code = .sleepMark c :: .sched :: .popOff :: i :: r ∨
      s'.hart.code = .release .input :: .sleepMark c :: .sched :: .popOff :: i :: r)
    (hi : i.waits = some c) : i.due s' := by
  have hl : lying s'.hart.code = true := by rcases hcode with hc | hc <;> rw [hc] <;> rfl
  have hdue : i.due s := by
    cases move with
    | exec junk code run =>
      rename_i x k
      by_cases hsw : x.switches = true
      · obtain ⟨_, _, hc⟩ := switch_held h code run hsw
        rcases hcode with hcode | hcode
        all_goals
          rw [hcode] at hc
          obtain ⟨_, _, hl⟩ := hc.leads
          cases hl
      · rw [Bool.not_eq_true] at hsw
        rw [code] at ht
        have hret : x ≠ .sretKernel := by
          rintro rfl
          obtain rfl := Except.ok.inj run
          obtain ⟨_, rest⟩ := h.leads code
          change k = _ ∨ k = _ at hcode
          rcases hcode with rfl | rfl
          all_goals
            obtain ⟨_, _, hl⟩ := rest.leads
            cases hl
        rcases checked ((exec_turns code run).code hsw) ht hret hcode with hdue | ⟨rfl, rfl⟩
        · exact hdue
        · exact hw.poised _ _ _ (.inr code) hi
    | interrupt irq on kernel => cases irq with
      | timer => cases hl
      | uart bytes => cases bytes <;> cases hl
    | userInterrupt irq code => cases irq with
      | timer => cases hl
      | uart bytes => cases bytes <;> cases hl
    | call op code | bootCall op early code => cases op <;> cases hl
    | userAlu regs pc words code | userStore va pa b code mapped =>
      change lying s.hart.code = true at hl
      rw [code] at hl
      cases hl
    | _ => cases hl
  rcases Instr.due_step h ht move hi hdue with hd | hp
  · exact hd
  · cases hp with
    | wake code | mask code | unlock code =>
      rcases hcode with hc | hc <;> rw [hc] at code <;> cases code

theorem here (h : Place thread top s) (hcur : s.current = some j) (hq : s.proc j = some q) :
    q.context.code = [] ∧ q.state = .running := by
  obtain ⟨l, p, hat, hrun, _⟩ := h
  obtain rfl := Option.some.inj (hat.current.symm.trans hcur)
  obtain rfl := Option.some.inj (hq.symm.trans hat.here)
  exact ⟨hat.empty, hrun⟩

/-- A sleeper that sleeps on stays where it was. -/
theorem rests_step (h : Holds S lvl top s) (move : Step E s s') (hq : s.proc j = some q)
    (hs : q.state = .sleeping ch) (hr : Rests (codeOf s q) i) (hp : s'.proc j = some p) :
    Rests (codeOf s' p) i := by
  rcases step_threads h move hp with ⟨q', hq', hsame | ⟨hcur, hhart, hadv⟩⟩ | ⟨hnone, _⟩
  · obtain rfl := Option.some.inj (hq.symm.trans hq')
    rw [hsame]
    exact hr
  · obtain rfl := Option.some.inj (hq.symm.trans hq')
    rw [hhart] at hr
    obtain ⟨r, hr | ⟨b, hr⟩⟩ := hr
    · rw [hr] at hadv
      obtain ⟨q, rfl, _⟩ := h.leads hr
      generalize codeOf s' p = c at hadv
      cases hadv with
      | run follows =>
        cases follows with
        | sched => exact ⟨r, .inr ⟨_, rfl⟩⟩
        | plain acts | idle acts | drop acts => cases acts
      | interrupt irq on =>
        rw [h.reads.2.1] at on
        cases on
    · obtain ⟨rfl, _⟩ := h.leads hr
      rw [(here h.place hcur hq).2] at hs
      cases hs
  · rw [hq] at hnone
    cases hnone

theorem dormant_step (hw : Wakeful E s) (h : Holds S lvl top s) (ht : Tended E s.hart.code)
    (move : Step E s s') (hp : s'.proc j = some p) (hs : p.state = .sleeping ch) :
    ∃ i, Bides E s' ch i ∧ Rests (codeOf s' p) i := by
  have hpass := step_passes h move j
  rw [hp] at hpass
  generalize ho : s.proc j = o at hpass
  cases hpass with
  | keep same =>
    cases o with
    | none => cases same
    | some q =>
      have hst : p.state = q.state := congrArg Prod.snd (Option.some.inj same)
      rw [hst] at hs
      obtain ⟨i, hb, hr⟩ := hw.dormant j q ch ho hs
      refine ⟨i, ?_, rests_step h move ho hs hr hp⟩
      rcases hb.step h ht move with hb' | ⟨r, hwake⟩
      · exact hb'
      · obtain ⟨_, junk, run⟩ := move.plain hwake (Pending.masked h (.wake hwake)) rfl
        obtain rfl := Except.ok.inj run
        exact absurd (hst.trans hs) (Sync.wakeAll_awake s ch hp)
  | pick | wake | born => cases hs
  | give code piece caller was =>
    cases piece with
    | yieldBody | exitMark => cases hs
    | sleepMark cause =>
      rw [code] at ht
      obtain ⟨⟨i, r, rfl, hi⟩, _⟩ := id ht
      rw [← code] at ht
      obtain ⟨rfl, q, rfl⟩ := h.leads code
      have hempty := (here h.place caller ho).1
      obtain ⟨hnext, _⟩ := move.plain code h.reads.2.1 rfl
      cases hs
      refine ⟨i, .cause cause hi (Instr.due_step h ht move hi (hw.poised _ _ _ (.inl code) hi)), r, .inl ?_⟩
      exact (codeOf_hart hempty).trans hnext
    | semCheck a =>
      obtain ⟨rfl, q, rfl⟩ := h.leads code
      have hempty := (here h.place caller ho).1
      obtain ⟨junk, run⟩ := move.quiet code h.reads.2.1 rfl
      cases hs
      rcases semCheck_eq run with ⟨_, rfl⟩ | ⟨_, s₁, s₂, _, _, rfl⟩
      · have hsame := congrArg Process.state (Option.some.inj (ho.symm.trans hp))
        rw [was] at hsame
        cases hsame
      · exact ⟨_, .sem a, _, .inl (codeOf_hart hempty)⟩

theorem boot (run : kmain E reserved m regs = .ok s) : Wakeful E s := by
  simp only [kmain, bind_ok, Except.ok.injEq] at run
  obtain ⟨_, _, _, _, _, _, _, _, _, _, _, _, _, _, rfl⟩ := run
  refine ⟨fun c i r hc _ => ?_, fun j p ch hp _ => by cases hp⟩
  rcases hc with hc | hc <;> cases hc

end Wakeful

theorem reachable_wakeful (h : Reachable E reserved s) : Wakeful E s := by
  induction h with
  | boot m regs run => exact .boot run
  | step reach move ih =>
    obtain ⟨res, lost, _, hs⟩ := reachable_sane reach
    obtain ⟨S, lvl, top, hh⟩ := hs.control
    have ht := ((tended_kept E).reachable reach).hart
    exact ⟨fun c i r hc hi => ih.poised_step hh ht move hc hi,
      fun j p ch hp hs => ih.dormant_step hh ht move hp hs⟩

end Osmium
