import Osmium.Lib.Loops

namespace Osmium.Lib

/-- A computation that ends with a result of the given kind, or fails only for
the reasons allowed. -/
structure Ends (lack : ε → Prop) (x : Except ε α) (post : α → Prop) : Prop where
  result : ∀ {a}, x = .ok a → post a
  failure : ∀ {e}, x = .error e → lack e

/-- No reason to fail is allowed. -/
abbrev Never (_ : ε) : Prop := False

namespace Ends

variable {lack : ε → Prop} {x : Except ε α} {post mid : α → Prop}

theorem ok (h : post a) : Ends lack (.ok a) post :=
  ⟨fun he => by rw [← Except.ok.inj he]; exact h, nofun⟩

theorem error (h : lack e) : Ends lack (.error e) post :=
  ⟨nofun, fun he => by rw [← Except.error.inj he]; exact h⟩

theorem of_ok (hx : x = .ok a) (h : post a) : Ends lack x post := by
  rw [hx]
  exact ok h

theorem mono (h : Ends lack x mid) (himp : ∀ a, mid a → post a) : Ends lack x post :=
  ⟨fun he => himp _ (h.result he), h.failure⟩

theorem weaken {lack' : ε → Prop} (h : Ends lack x post) (himp : ∀ e, lack e → lack' e) :
    Ends lack' x post := ⟨h.result, fun he => himp _ (h.failure he)⟩

theorem never (h : Ends Never x post) : Ends lack x post := h.weaken fun _ => False.elim

/-- More is known of the results. -/
theorem and (h : Ends lack x post) (hok : ∀ a, x = .ok a → mid a) :
    Ends lack x (fun a => post a ∧ mid a) := ⟨fun he => ⟨h.result he, hok _ he⟩, h.failure⟩

theorem fails (h : ∀ {e}, x = .error e → lack e) : Ends lack x fun _ => True :=
  ⟨fun _ => trivial, h⟩

theorem bind {f : α → Except ε β} {post : β → Prop} (hx : Ends lack x mid)
    (hf : ∀ a, x = .ok a → mid a → Ends lack (f a) post) : Ends lack (x >>= f) post := by
  cases x with
  | ok a => exact hf a rfl (hx.result rfl)
  | error e => exact error (hx.failure rfl)

theorem map {f : α → β} {post : β → Prop} (hx : Ends lack x mid)
    (hf : ∀ a, mid a → post (f a)) : Ends lack (f <$> x) post := by
  cases x with
  | ok a => exact ok (hf a (hx.result rfl))
  | error e => exact error (hx.failure rfl)

/-- A loop whose every iteration ends and keeps the invariant. -/
theorem loop_range {f : σ → Nat → Except ε σ} {n : Nat} (I : Nat → σ → Prop) (start : I 0 s)
    (step : ∀ i s, i < n → I i s → Ends lack (f s i) (I (i + 1))) :
    Ends lack ((List.range n).foldlM f s) (I n) := by
  induction n with
  | zero => exact ok start
  | succ n ih =>
    have hn := ih (fun i s hi => step i s (Nat.lt_succ_of_lt hi))
    rw [List.range_succ, List.foldlM_append]
    refine hn.bind (fun a _ ha => ?_)
    exact (step n a (Nat.lt_succ_self n) ha).bind (fun b _ hb => ok hb)

end Ends
end Osmium.Lib
