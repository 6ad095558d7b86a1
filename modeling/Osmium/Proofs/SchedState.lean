import Osmium.Proofs.Active

namespace Osmium
open Lib Vm Control

variable {T : Type} {E : Env} {pool : PagePool E.allocStart} {s s' : Sys T}

/-- What a process can go through in one step. -/
inductive Passes (E : Env) (s : Sys T) (slot : Nat) : Option (Process T) → Option (Process T) → Prop where
  | keep (same : o'.map status = o.map status) : Passes E s slot o o'
  | pick (code : s.hart.code = .pick :: k) (was : p.state = .runnable) :
      Passes E s slot (some p) (some { p with state := .running })
  | give (code : s.hart.code = i :: k) (piece : Gives E i st) (caller : s.current = some slot)
      (was : p.state = .running) : Passes E s slot (some p) (some { p with state := st })
  | wake (code : s.hart.code = .wakeAll c :: k) (was : p.state = .sleeping c) :
      Passes E s slot (some p) (some { p with state := .runnable })
  | reap (code : s.hart.code = .reap slot :: k) (was : p.state = .zombie) :
      Passes E s slot (some p) none
  | born (code : s.hart.code = .publish d :: k) : Passes E s slot none (some (Proc.fresh d))

theorem step_passes (h : Holds S lvl top s) (move : Step E s s') (j : Nat) :
    Passes E s j (s.proc j) (s'.proc j) := by
  rcases step_cases h move with ⟨junk, i, k, hcode, run⟩ | ⟨op, k, _, _, rfl⟩ | hd
  · have hmove := (exec_emits h hcode run).moves j
    generalize s.proc j = o, s'.proc j = o' at hmove
    cases hmove with
    | keep same => exact .keep same
    | pick piece was =>
      subst piece
      exact .pick hcode was
    | give piece caller was => exact .give hcode piece caller was
    | wake piece was =>
      subst piece
      exact .wake hcode was
    | reap piece was =>
      subst piece
      exact .reap hcode was
    | born piece =>
      subst piece
      exact .born hcode
  · exact .keep rfl
  · refine .keep ?_
    rw [hd.rest]
    rfl

end Osmium
