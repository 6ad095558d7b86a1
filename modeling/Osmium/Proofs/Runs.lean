import Osmium.Proofs.Lifetime
import Osmium.Proofs.Load
import Osmium.Proofs.HeapCanon
import Osmium.Lib.Must

namespace Osmium
open Lib Vm

variable {T : Type} {E : Env} {pool : PagePool E.allocStart} {s s' : Sys T}

/-- The kernel runs its next piece of code. -/
def Goes (E : Env) (s s' : Sys T) : Prop :=
  ∃ junk i k, s.hart.code = i :: k ∧ exec E junk s i k = .ok s'

/-- It runs on, with nothing in between. -/
abbrev Runs (E : Env) : Sys T → Sys T → Prop := Relation.ReflTransGen (Goes E)

theorem Goes.of_exec (hcode : s.hart.code = i :: k) (run : exec E (fun _ => 0) s i k = .ok s') :
    Goes E s s' := ⟨_, i, k, hcode, run⟩

theorem Runs.steps (h : Runs E s s') : Relation.ReflTransGen (Step E) s s' := by
  refine Relation.ReflTransGen.mono (fun a b hgo => ?_) _ _ h
  obtain ⟨junk, i, k, hcode, run⟩ := hgo
  exact .exec junk hcode run

theorem Reachable.steps (hr : Reachable E reserved s) (h : Relation.ReflTransGen (Step E) s s') :
    Reachable E reserved s' := by
  induction h with
  | refl => exact hr
  | tail _ move ih => exact ih.step move

/-- With interrupts off the kernel's code decides. -/
theorem Step.quiet (move : Step E s s') (hcode : s.hart.code = i :: k) (hoff : s.hart.sie = false)
    (hi : i.idles = false) : ∃ junk, Osmium.exec E junk s i k = .ok s' := by
  cases move with
  | exec junk code run =>
    obtain ⟨rfl, rfl⟩ := List.cons.inj (hcode.symm.trans code)
    exact ⟨junk, run⟩
  | interrupt irq on kernel =>
    rw [hoff] at on
    cases on
  | call op code | leave code | bootCall op early code | bootDone code | userInterrupt irq code
  | userAlu regs pc words code | userStore va pa b code mapped
  | userTrap cause stval word code fetched =>
    obtain ⟨rfl, rfl⟩ := List.cons.inj (hcode.symm.trans code)
    cases hi

/-- The only thing the machine can do next. -/
def Forced (E : Env) (s s' : Sys T) : Prop := Step E s s' ∧ ∀ s'', Step E s s'' → s'' = s'

theorem Forced.of_exec (hcode : s.hart.code = i :: k) (hoff : s.hart.sie = false)
    (hi : i.idles = false) (run : ∀ junk, exec E junk s i k = .ok s') : Forced E s s' := by
  refine ⟨.exec (fun _ => 0) hcode (run _), fun s'' move => ?_⟩
  obtain ⟨junk, run'⟩ := move.quiet hcode hoff hi
  exact Except.ok.inj (run'.symm.trans (run junk))

theorem Forced.steps (h : Relation.ReflTransGen (Forced E) s s') : Relation.ReflTransGen (Step E) s s' :=
  Relation.ReflTransGen.mono (fun _ _ hf => hf.1) _ _ h

/-- Its next piece stops the kernel. -/
def Stops (E : Env) (s : Sys T) (e : Panic) : Prop :=
  ∃ junk i k, s.hart.code = i :: k ∧ exec E junk s i k = .error e

/-- Left to itself, the kernel comes to a state with `post`, or a panic with
`lack` stops it on the way. -/
inductive Fares (E : Env) (lack : Panic → Prop) (post : Sys T → Prop) : Sys T → Prop where
  | arrived (h : post a) : Fares E lack post a
  | stopped (h : Stops E a e) (why : lack e) : Fares E lack post a
  | goes (h : Goes E a b) (rest : Fares E lack post b) : Fares E lack post a

namespace Fares

variable {lack lack' : Panic → Prop} {post post' : Sys T → Prop}

theorem seq (h : Fares E lack post s) (hl : ∀ e, lack e → lack' e)
    (next : ∀ s, post s → Fares E lack' post' s) : Fares E lack' post' s := by
  induction h with
  | arrived hp => exact next _ hp
  | stopped hs why => exact .stopped hs (hl _ why)
  | goes hgo _ ih => exact .goes hgo ih

/-- One piece of code. -/
theorem piece (hcode : s.hart.code = i :: k) (run : Ends lack (exec E (fun _ => 0) s i k)
    (Fares E lack post)) : Fares E lack post s := by
  cases hr : exec E (fun _ => 0) s i k with
  | error e => exact .stopped ⟨_, i, k, hcode, hr⟩ (run.failure hr)
  | ok s' => exact .goes ⟨_, i, k, hcode, hr⟩ (run.result hr)

theorem runs (h : Fares E lack post s) : (∃ s', Runs E s s' ∧ post s') ∨
    ∃ s' e, Runs E s s' ∧ Stops E s' e ∧ lack e := by
  induction h with
  | arrived hp => exact .inl ⟨_, .refl, hp⟩
  | stopped hs why => exact .inr ⟨_, _, .refl, hs, why⟩
  | goes hgo _ ih =>
    rcases ih with ⟨s', hr, hp⟩ | ⟨s', e, hr, hs, why⟩
    · exact .inl ⟨s', .head hgo hr, hp⟩
    · exact .inr ⟨s', e, .head hgo hr, hs, why⟩

end Fares

/-- Only the drop to a program's first instruction depends on what the kernel
leaves in the registers. -/
theorem exec_junk (E : Env) (junk junk' : Regs) (h : ∀ entry sp top, i ≠ .enterUser entry sp top) :
    exec E junk s i k = exec E junk' s i k := by
  cases i with
  | enterUser entry sp top => exact absurd rfl (h entry sp top)
  | gotChar r b => cases r <;> rfl
  | _ => rfl

theorem exec_switchTo (E : Env) (junk : Regs) (h : root ≠ 0) : exec E junk s (.switchTo root) k =
    .ok (Sys.goto { s with hart := { s.hart with satp := root } } k) := by
  show (do let s ← Proc.switchTo s root; Except.ok (Sys.goto s k)) = _
  unfold Proc.switchTo
  rw [if_neg h, ok_bind]

/-- With interrupts off, one piece of code. -/
theorem Lib.Must.piece (hcode : s.hart.code = i :: k) (hoff : s.hart.sie = false) (hi : i.idles = false)
    (run : ∀ junk, Ends lack (exec E junk s i k) (Must (Step E) (Stops E) lack post)) :
    Must (Step E) (Stops E) lack post s := by
  refine .goes ?_ (fun e he => ?_) fun s' move => ?_
  · cases hr : exec E (fun _ => 0) s i k with
    | error e => exact .inr ⟨e, _, i, k, hcode, hr⟩
    | ok s' => exact .inl ⟨s', .exec _ hcode hr⟩
  · obtain ⟨junk, i', k', hcode', he⟩ := he
    obtain ⟨rfl, rfl⟩ := List.cons.inj (hcode.symm.trans hcode')
    exact (run junk).failure he
  · obtain ⟨junk, hr⟩ := move.quiet hcode hoff hi
    exact (run junk).result hr

/-- The pieces of `load_user_image`. -/
def Instr.loads : Instr T → Bool
  | .loadImage .. | .loadText .. | .loadStack .. => true
  | _ => false

/-- What holds before a piece of the loader when it holds after it. -/
structure Backward (E : Env) (on : Bool) (lack : Panic → Prop) (R : Sys T → Prop) : Prop where
  piece : ∀ {a : Sys T} {i k}, a.hart.code = i :: k → a.hart.sie = on → i.loads = true →
    Ends lack (exec E (fun _ => 0) a i k) R → R a

theorem Fares.backward (E : Env) (on : Bool) (lack : Panic → Prop) (post : Sys T → Prop) :
    Backward E on lack (Fares E lack post) := ⟨fun hcode _ _ run => .piece hcode run⟩

theorem must_backward (E : Env) (hon : on = false) (lack : Panic → Prop) (post : Sys T → Prop) :
    Backward E on lack (Must (Step E) (Stops E) lack post) where
  piece {a i k} hcode hoff hi run := by
    have hidle : i.idles = false := by cases i <;> first | rfl | cases hi
    refine .piece hcode (hoff.trans hon) hidle fun junk => ?_
    rw [exec_junk E junk (fun _ => 0) (fun _ _ _ he => by rw [he] at hi; cases hi)]
    exact run

/-- What a loaded image is for. -/
def Proc.loaded (prog : Program) (table : Nat) : Finish → Instr T
  | .spawn => .spawnUser prog table
  | .exec => .execCommit prog table

namespace Filling

variable {as : List Asset} {lack : Panic → Prop} {R : Sys T → Prop}

/-- The loop over a program's pages, from page `n` on. -/
theorem load_text (hR : Backward E s.hart.sie lack R) (d n : Nat) (hd : n + d = Proc.npages E prog)
    (h : Filling E pool prog s as t n false P) (poor : P.freePages < 3 * d → lack .outOfPages)
    (next : ∀ P', Filling E pool prog s as t (Proc.npages E prog) false P' →
      P.freePages ≤ P'.freePages + 3 * d →
      R (Sys.goto { s with phys := P' } (.loadStack prog t fin :: k))) :
    R (Sys.goto { s with phys := P } (.loadText prog t n fin :: k)) := by
  induction d generalizing n P with
  | zero =>
    obtain rfl : n = Proc.npages E prog := hd
    refine hR.piece rfl rfl rfl (.of_ok ?_ (next P h (Nat.le_refl _)))
    show Proc.loadText E _ prog t _ fin k = _
    unfold Proc.loadText
    rw [if_neg (Nat.lt_irrefl _)]
    rfl
  | succ d ih =>
    have hn : n < Proc.npages E prog := by omega
    refine hR.piece rfl rfl rfl ?_
    show Ends _ (Proc.loadText E _ prog t n fin k) _
    unfold Proc.loadText
    rw [if_pos hn]
    refine .bind ⟨(h.page hn).result, fun he => ?_⟩ fun P' _ hP => .ok ?_
    · obtain ⟨rfl, hfew⟩ := (h.page hn).failure he
      exact poor (by omega)
    · obtain ⟨h', hfew⟩ := hP
      exact ih (n + 1) (by omega) h' (fun hp => poor (by omega))
        fun P'' hfill hfew' => next P'' hfill (by omega)

theorem load_stack (hR : Backward E s.hart.sie lack R)
    (h : Filling E pool prog s as t (Proc.npages E prog) false P)
    (poor : P.freePages < 3 → lack .outOfPages)
    (next : ∀ P', Filling E pool prog s as t (Proc.npages E prog) true P' →
      P.freePages ≤ P'.freePages + 3 → R (Sys.goto { s with phys := P' } (Proc.loaded prog t fin :: k))) :
    R (Sys.goto { s with phys := P } (.loadStack prog t fin :: k)) := by
  have heq : Proc.loadStack (Sys.goto { s with phys := P } (.loadStack prog t fin :: k)) prog t fin k =
      ((allocPage P >>= fun r =>
        mapPages r.2 t (userStackTop - pageSize) r.1 pageSize dataPerm) >>= fun P' =>
        .ok (Sys.goto { s with phys := P' } (Proc.loaded prog t fin :: k))) := by
    unfold Proc.loadStack
    rw [bind_assoc]
    cases fin <;> rfl
  refine hR.piece rfl rfl rfl ?_
  show Ends _ (Proc.loadStack _ prog t fin k) _
  rw [heq]
  refine .bind ⟨h.stack.result, fun he => ?_⟩ fun P' _ hP => .ok (next P' hP.1 hP.2)
  obtain ⟨rfl, hfew⟩ := h.stack.failure he
  exact poor hfew

end Filling

namespace Books

variable {as : List Asset} {lack : Panic → Prop} {R : Sys T → Prop}

/-- `load_user_image` from its first piece to its end. It needs at most three
pages for each page of the program and of the stack, and one for the root. -/
theorem load_backward (hR : Backward E s.hart.sie lack R) (h : Books E pool s as)
    (hcode : s.hart.code = .loadImage prog fin :: k)
    (poor : s.phys.freePages < 4 + 3 * Proc.npages E prog → lack .outOfPages)
    (next : ∀ t P, Filling E pool prog s as t (Proc.npages E prog) true P →
      s.phys.freePages ≤ P.freePages + (4 + 3 * Proc.npages E prog) →
      R (Sys.goto { s with phys := P } (Proc.loaded prog t fin :: k))) : R s := by
  have hmake := h.owns.spaces.make_ends
  refine hR.piece hcode rfl rfl ?_
  show Ends _ (Proc.loadImage E s prog fin k) _
  unfold Proc.loadImage
  rw [if_neg (Nat.ne_of_gt (E.image_fits prog).1)]
  refine .bind ⟨fun {r} run => And.intro run (hmake.result run), fun he => ?_⟩ fun r _ hr => .ok ?_
  · obtain ⟨rfl, hz⟩ := hmake.failure he
    exact poor (by omega)
  · obtain ⟨run, _, hspared, hcount⟩ := hr
    have hfill : Filling E pool prog s as r.1 0 false r.2 :=
      ⟨h.make run, hspared, fun i hi => absurd hi (Nat.not_lt_zero i), nofun⟩
    refine hfill.load_text hR (Proc.npages E prog) 0 (Nat.zero_add _) (fun hp => poor (by omega))
      fun P₁ hfill₁ hfew₁ => ?_
    refine hfill₁.load_stack hR (fun hp => poor (by omega)) fun P₂ hfill₂ hfew₂ => ?_
    exact next r.1 P₂ hfill₂ (by omega)

theorem load_fares (h : Books E pool s as) (hcode : s.hart.code = .loadImage prog fin :: k) :
    Fares E (fun e => e = .outOfPages ∧ s.phys.freePages < 4 + 3 * Proc.npages E prog)
      (fun s' => ∃ t P, s' = Sys.goto { s with phys := P } (Proc.loaded prog t fin :: k) ∧
        Filling E pool prog s as t (Proc.npages E prog) true P ∧
        s.phys.freePages ≤ P.freePages + (4 + 3 * Proc.npages E prog)) s :=
  h.load_backward (Fares.backward E _ _ _) hcode (fun hp => ⟨rfl, hp⟩)
    fun t P hfill hfew => .arrived ⟨t, P, rfl, hfill, hfew⟩

theorem load_image (h : Books E pool s as) (hcode : s.hart.code = .loadImage prog fin :: k)
    (hfree : 4 + 3 * Proc.npages E prog ≤ s.phys.freePages) :
    ∃ t P, Runs E s (Sys.goto { s with phys := P } (Proc.loaded prog t fin :: k)) ∧
      Filling E pool prog s as t (Proc.npages E prog) true P ∧
      s.phys.freePages ≤ P.freePages + (4 + 3 * Proc.npages E prog) := by
  rcases (h.load_fares hcode).runs with ⟨s', hrun, t, P, rfl, hfill, hfew⟩ | ⟨_, e, _, _, _, hlack⟩
  · exact ⟨t, P, hrun, hfill, hfew⟩
  · omega

end Books
end Osmium
