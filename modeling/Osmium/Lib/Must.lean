import Mathlib.Logic.Relation

namespace Osmium.Lib

/-- Whatever a system does from a state on, it comes to one with `post`, unless
it stops for a reason that `lack` allows. -/
inductive Must {σ ε : Type} (Step : σ → σ → Prop) (Stops : σ → ε → Prop) (lack : ε → Prop)
    (post : σ → Prop) : σ → Prop where
  | arrived (h : post s) : Must Step Stops lack post s
  | goes (moves : (∃ s', Step s s') ∨ ∃ e, Stops s e) (fails : ∀ e, Stops s e → lack e)
      (next : ∀ s', Step s s' → Must Step Stops lack post s') : Must Step Stops lack post s

namespace Must

variable {σ ε : Type} {Step : σ → σ → Prop} {Stops : σ → ε → Prop} {lack lack' : ε → Prop}
variable {post post' : σ → Prop} {s s' : σ}

theorem seq (h : Must Step Stops lack post s) (hl : ∀ e, lack e → lack' e)
    (next : ∀ s, post s → Must Step Stops lack' post' s) : Must Step Stops lack' post' s := by
  induction h with
  | arrived hp => exact next _ hp
  | goes moves fails _ ih => exact .goes moves (fun e he => hl e (fails e he)) ih

/-- A run has been there, or is still on its way. -/
theorem run (h : Must Step Stops lack post s) (hr : Relation.ReflTransGen Step s s') :
    (∃ t, Relation.ReflTransGen Step s t ∧ Relation.ReflTransGen Step t s' ∧ post t) ∨
      Must Step Stops lack post s' := by
  induction hr with
  | refl => exact .inr h
  | tail hr move ih =>
    rcases ih with ⟨t, h1, h2, hp⟩ | hm
    · exact .inl ⟨t, h1, h2.tail move, hp⟩
    · cases hm with
      | arrived hp => exact .inl ⟨_, hr, .single move, hp⟩
      | goes _ _ next => exact .inr (next _ move)

/-- With nothing to stop it, there is a run that comes there. -/
theorem reaches (h : Must Step Stops lack post s) (hl : ∀ e, ¬lack e) :
    ∃ t, Relation.ReflTransGen Step s t ∧ post t := by
  induction h with
  | arrived hp => exact ⟨_, .refl, hp⟩
  | goes moves fails _ ih =>
    rcases moves with ⟨s', move⟩ | ⟨e, he⟩
    · obtain ⟨t, hr, hp⟩ := ih s' move
      exact ⟨t, .head move hr, hp⟩
    · exact absurd (fails e he) (hl e)

end Must
end Osmium.Lib
