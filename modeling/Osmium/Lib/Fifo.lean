import Mathlib.Data.List.ReduceOption

namespace Osmium.Lib

/-- The end and the answers of a series of calls. -/
def outcome (call : σ → ι → σ × ο) (s : σ) : List ι → σ × List ο
  | [] => (s, [])
  | i :: is =>
    let rest := outcome call (call s i).1 is
    (rest.1, (call s i).2 :: rest.2)

/-- If every call keeps the invariant, answers like the abstract one and ends in a
state that looks like the abstract one's, then so does every series of calls. -/
theorem outcome_refines {call : σ → ι → σ × ο} {abs : τ → κ → τ × ο} (inv : σ → Prop)
    (view : σ → τ) (op : ι → κ) (h : ∀ s i, inv s → inv (call s i).1 ∧
      view (call s i).1 = (abs (view s) (op i)).1 ∧ (call s i).2 = (abs (view s) (op i)).2)
    (is : List ι) (hs : inv s) :
    inv (outcome call s is).1 ∧
      view (outcome call s is).1 = (outcome abs (view s) (is.map op)).1 ∧
      (outcome call s is).2 = (outcome abs (view s) (is.map op)).2 := by
  induction is generalizing s with
  | nil => exact ⟨hs, rfl, rfl⟩
  | cons i is ih =>
    obtain ⟨hinv, hview, hout⟩ := h s i hs
    obtain ⟨hinv', hview', hout'⟩ := ih hinv
    rw [hview] at hview' hout'
    exact ⟨hinv', hview', congr (congrArg List.cons hout) hout'⟩

namespace Fifo

inductive Op (α : Type) where
  | push (a : α)
  | pop

def Op.map (f : α → β) : Op α → Op β
  | .push a => .push (f a)
  | .pop => .pop

/-- A queue that holds at most `cap` and turns away what does not fit. -/
def step (cap : Nat) (q : List α) : Op α → List α × Option α
  | .push a => (if q.length < cap then q ++ [a] else q, none)
  | .pop => (q.tail, q.head?)

/-- What a series of calls put into the queue. -/
def accepted (cap : Nat) (q : List α) : List (Op α) → List α
  | [] => []
  | .push a :: ops =>
    if q.length < cap then a :: accepted cap (q ++ [a]) ops else accepted cap q ops
  | .pop :: ops => accepted cap q.tail ops

variable {cap : Nat} {q : List α}

theorem outcome_push (a : α) (ops : List (Op α)) : outcome (step cap) q (.push a :: ops) =
    ((outcome (step cap) (if q.length < cap then q ++ [a] else q) ops).1,
      none :: (outcome (step cap) (if q.length < cap then q ++ [a] else q) ops).2) := rfl

theorem outcome_pop (ops : List (Op α)) : outcome (step cap) q (.pop :: ops) =
    ((outcome (step cap) q.tail ops).1, q.head? :: (outcome (step cap) q.tail ops).2) := rfl

/-- First in, first out: what was there and what was accepted is what came out,
followed by what is left. -/
theorem conservation (ops : List (Op α)) : q ++ accepted cap q ops =
    (outcome (step cap) q ops).2.reduceOption ++ (outcome (step cap) q ops).1 := by
  induction ops generalizing q with
  | nil => exact List.append_nil q
  | cons op ops ih =>
    cases op with
    | push a =>
      rw [outcome_push, List.reduceOption_cons_of_none]
      unfold accepted
      split
      · rw [← ih, List.append_assoc, List.singleton_append]
      · exact ih
    | pop =>
      rw [outcome_pop]
      unfold accepted
      cases q with
      | nil => rw [List.head?_nil, List.reduceOption_cons_of_none, List.tail_nil, ← ih]
      | cons a q =>
        rw [List.head?_cons, List.reduceOption_cons_of_some, List.tail_cons, List.cons_append,
          List.cons_append, ih]

end Fifo
end Osmium.Lib
