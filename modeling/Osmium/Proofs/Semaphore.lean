import Osmium.Proofs.Moves

namespace Osmium.Sync
open Lib Control Site Level

variable {T : Type} {s s' : Sys T}

/-- Code that has raised the semaphore and is still to wake its sleepers: the
wakeup comes before any further increment. -/
def Raised (E : Env) (a : SemId) (c : List (Instr T)) : Prop :=
  ∃ pre post, c = pre ++ .wakeAll (chanOf E a) :: post ∧ .increment a ∉ pre

/-- Every increment still to come is followed by its wakeup. -/
def Paired (E : Env) (a : SemId) (c : List (Instr T)) : Prop :=
  ∀ k, (.increment a :: k) <:+ c → Raised E a k

namespace Raised

variable {x : Instr T} {c : List (Instr T)}

theorem cons (h : Raised E a c) (hx : x ≠ .increment a) : Raised E a (x :: c) := by
  obtain ⟨pre, post, rfl, hp⟩ := h
  refine ⟨x :: pre, post, rfl, ?_⟩
  rw [List.mem_cons, not_or]
  exact ⟨Ne.symm hx, hp⟩

theorem tail (h : Raised E a (x :: c)) (hx : x ≠ .wakeAll (chanOf E a)) : Raised E a c := by
  obtain ⟨pre, post, he, hp⟩ := h
  cases pre with
  | nil => exact absurd (List.cons.inj he).1 hx
  | cons y pre =>
    exact ⟨pre, post, (List.cons.inj he).2, fun hm => hp (List.mem_cons_of_mem _ hm)⟩

theorem append (h : Raised E a c) {p : List (Instr T)} (hp : .increment a ∉ p) :
    Raised E a (p ++ c) := by
  obtain ⟨pre, post, rfl, hpre⟩ := h
  exact ⟨p ++ pre, post, (List.append_assoc ..).symm, by simp [hp, hpre]⟩

theorem mem (h : Raised E a c) : .wakeAll (chanOf E a) ∈ c := by
  obtain ⟨pre, post, rfl, _⟩ := h
  exact List.mem_append_right _ List.mem_cons_self

end Raised

namespace Paired

variable {x : Instr T} {c : List (Instr T)}

theorem nil : Paired (T := T) E a [] := fun _ h => absurd (List.suffix_nil.mp h) (List.cons_ne_nil _ _)

theorem cons (h : Paired E a c) (hx : x ≠ .increment a) : Paired E a (x :: c) := by
  intro k hk
  rcases List.suffix_cons_iff.mp hk with he | hk
  · exact absurd (List.cons.inj he).1.symm hx
  · exact h k hk

theorem raise (h : Paired E a c) (hr : Raised E a c) : Paired E a (.increment a :: c) := by
  intro k hk
  rcases List.suffix_cons_iff.mp hk with he | hk
  · rw [(List.cons.inj he).2]
    exact hr
  · exact h k hk

theorem tail (h : Paired E a (x :: c)) : Paired E a c :=
  fun k hk => h k (hk.trans (List.suffix_cons x c))

theorem append (h : Paired E a c) {p : List (Instr T)} (hp : .increment a ∉ p) :
    Paired E a (p ++ c) := by
  induction p with
  | nil => exact h
  | cons x p ih =>
    rw [List.mem_cons, not_or] at hp
    exact (ih hp.2).cons (Ne.symm hp.1)

theorem signal (h : Paired E a c) (b : SemId) : Paired E a (signal E b ++ c) := by
  have hw : Paired E a ([.release (.count b), .popOff, .pushOff, .wakeAll (chanOf E b), .popOff] ++ c) :=
    h.append (by simp)
  have hi : Paired E a (.increment b :: .release (.count b) :: .popOff :: .pushOff ::
      .wakeAll (chanOf E b) :: .popOff :: c) := by
    by_cases hb : b = a
    · subst hb
      exact hw.raise ⟨[.release (.count b), .popOff, .pushOff], .popOff :: c, rfl, by simp⟩
    · exact hw.cons (fun he => hb (Instr.increment.inj he))
  exact hi.append (p := [.pushOff, .acquire (.count b)]) (by simp)

theorem op (h : Paired E a c) (o : Op T) : Paired E a (o.code E ++ c) := by
  cases o with
  | signal n => exact h.signal _
  | send channel item =>
    exact (h.signal _).append
      (p := [.wait (.empty channel), .acquire (.buf channel), .pushBack channel item,
        .release (.buf channel)]) (by simp)
  | recv channel =>
    exact (h.signal _).append
      (p := [.wait (.full channel), .acquire (.buf channel), .popFront channel,
        .release (.buf channel)]) (by simp)
  | _ => exact h.append (by simp [Op.code, Proc.yieldNow])

end Paired

theorem wakeAll_awake (s : Sys T) (chan : Nat) (hp : (Proc.wakeAll s chan).proc j = some p) :
    p.state ≠ .sleeping chan := by
  unfold Proc.wakeAll Sys.proc at hp
  rw [List.getElem?_map] at hp
  rcases hq : s.procs[j]? with _ | _ | q
  · simp [hq] at hp
  · simp [hq] at hp
  · simp only [hq, Option.map_some, Option.join_some, Option.some.injEq] at hp
    rw [← hp]
    unfold Proc.wakeProc
    split
    · exact State.noConfusion
    · assumption

end Osmium.Sync
