import Osmium.Proofs.Semaphore

namespace Osmium.Sync
open Lib Control Site Level

variable {T : Type} {s s' : Sys T}

/-- What a thread inside `send` or `recv` has still to do to the channel. -/
inductive Token where
  | waitEmpty | push | raiseFull | waitFull | pop | raiseEmpty
  deriving DecidableEq

def tokens (ch : Nat) : Instr T → List Token
  | .wait a | .semCheck a =>
    if a = .empty ch then [.waitEmpty] else if a = .full ch then [.waitFull] else []
  | .increment a =>
    if a = .full ch then [.raiseFull] else if a = .empty ch then [.raiseEmpty] else []
  | .pushBack c _ => if c = ch then [.push] else []
  | .popFront c => if c = ch then [.pop] else []
  | _ => []

/-- The calls of a thread: nothing for this channel, a `send` or a `recv`. -/
theorem op_tokens (E : Env) (o : Op T) (ch : Nat) :
    (o.code E).flatMap (tokens ch) = [] ∨
      (o.code E).flatMap (tokens ch) = [.waitEmpty, .push, .raiseFull] ∨
      (o.code E).flatMap (tokens ch) = [.waitFull, .pop, .raiseEmpty] := by
  cases o with
  | send c item =>
    by_cases hc : c = ch
    · exact .inr (.inl (by simp [Op.code, send, signal, Proc.wakeup, tokens, hc]))
    · exact .inl (by simp [Op.code, send, signal, Proc.wakeup, tokens, hc])
  | recv c =>
    by_cases hc : c = ch
    · exact .inr (.inr (by simp [Op.code, recv, signal, Proc.wakeup, tokens, hc]))
    · exact .inl (by simp [Op.code, recv, signal, Proc.wakeup, tokens, hc])
  | _ => exact .inl rfl

/-- A wait is followed by its buffer operation, and that by its signal. -/
structure Even (l : List Token) : Prop where
  push : l.count .waitEmpty ≤ l.count .push
  full : l.count .push ≤ l.count .raiseFull
  pop : l.count .waitFull ≤ l.count .pop
  empty : l.count .pop ≤ l.count .raiseEmpty

/-- So it is from every point on. -/
def Balanced (l : List Token) : Prop := ∀ t, t <:+ l → Even t

namespace Balanced

theorem nil : Balanced [] := by
  intro t ht
  rw [List.suffix_nil.mp ht]
  exact ⟨Nat.le_refl _, Nat.le_refl _, Nat.le_refl _, Nat.le_refl _⟩

theorem cons (h : Balanced l) (hx : Even (x :: l)) : Balanced (x :: l) := by
  intro t ht
  rcases List.suffix_cons_iff.mp ht with rfl | ht
  · exact hx
  · exact h t ht

theorem drop (h : Balanced (l' ++ l)) : Balanced l :=
  fun t ht => h t (ht.trans (List.suffix_append l' l))

theorem even (h : Balanced l) : Even l := h l List.suffix_rfl

theorem send (h : Balanced l) : Balanced (.waitEmpty :: .push :: .raiseFull :: l) := by
  obtain ⟨h1, h2, h3, h4⟩ := h.even
  refine ((h.cons ?_).cons ?_).cons ?_ <;> constructor <;> simp <;> omega

theorem recv (h : Balanced l) : Balanced (.waitFull :: .pop :: .raiseEmpty :: l) := by
  obtain ⟨h1, h2, h3, h4⟩ := h.even
  refine ((h.cons ?_).cons ?_).cons ?_ <;> constructor <;> simp <;> omega

end Balanced

/-- What the semaphores, the buffer and the threads inside the channel's
operations add up to. -/
structure Flow (E : Env) (ch : Nat) (s : Sys T) : Prop where
  slots : (s.sem (.empty ch)).count + (s.chan ch).buf.length + (gather (tokens ch) s).count .push +
      (gather (tokens ch) s).count .raiseEmpty =
    E.capacity ch + (gather (tokens ch) s).count .waitEmpty + (gather (tokens ch) s).count .pop
  items : (s.sem (.full ch)).count + (gather (tokens ch) s).count .pop +
      (gather (tokens ch) s).count .raiseFull =
    (s.chan ch).buf.length + (gather (tokens ch) s).count .waitFull +
      (gather (tokens ch) s).count .push
  order : (s.chan ch).pushed = (s.chan ch).popped ++ (s.chan ch).buf
  codes : ∀ c ∈ codes s, Balanced (c.flatMap (tokens ch))

theorem flatMap_even {l : List (List (Instr T))}
    (h : ∀ c ∈ l, Balanced (c.flatMap (tokens ch))) :
    Even (l.flatMap (fun c => c.flatMap (tokens ch))) := by
  induction l with
  | nil => exact Balanced.nil.even
  | cons c l ih =>
    obtain ⟨a1, a2, a3, a4⟩ := (h c List.mem_cons_self).even
    obtain ⟨b1, b2, b3, b4⟩ := ih (fun c hc => h c (List.mem_cons_of_mem _ hc))
    rw [List.flatMap_cons]
    constructor <;> simp only [List.count_append] <;> omega

namespace Flow

theorem bound (h : Flow E ch s) : (s.chan ch).buf.length ≤ E.capacity ch := by
  obtain ⟨h1, h2, h3, h4⟩ : Even (gather (tokens ch) s) := flatMap_even h.codes
  have hs := h.slots
  have hi := h.items
  omega

/-- The thread in front of `pop_front` has waited for an item. -/
theorem nonempty (h : Flow E ch s) (hcode : s.hart.code = .popFront ch :: k) :
    (s.chan ch).buf ≠ [] := by
  have hrest : ∀ c ∈ k :: (Osmium.codes s).tail, Balanced (c.flatMap (tokens ch)) := by
    intro c hc
    rcases List.mem_cons.mp hc with rfl | hc
    · have hh := h.codes _ List.mem_cons_self
      rw [hcode, List.flatMap_cons] at hh
      exact hh.drop
    · exact h.codes c (List.mem_of_mem_tail hc)
  have hg : gather (tokens ch) s =
      .pop :: (k :: (Osmium.codes s).tail).flatMap (fun c => c.flatMap (tokens ch)) := by
    show s.hart.code.flatMap (tokens ch) ++ _ = _
    rw [hcode, List.flatMap_cons, show tokens ch (.popFront (T := T) ch) = [.pop] from if_pos rfl]
    rfl
  obtain ⟨h1, h2, h3, h4⟩ := flatMap_even hrest
  have hi := h.items
  rw [hg] at hi
  simp only [List.count_cons_self, List.count_cons_of_ne (by decide : Token.pop ≠ .raiseFull),
    List.count_cons_of_ne (by decide : Token.pop ≠ .waitFull),
    List.count_cons_of_ne (by decide : Token.pop ≠ .push)] at hi
  intro hb
  rw [hb, List.length_nil] at hi
  omega

/-- Anything that touches neither semaphores nor channels. -/
theorem of_perm (h : Flow E ch s) (hsem : s'.sem = s.sem) (hchan : s'.chan = s.chan)
    (hg : (gather (tokens ch) s').Perm (gather (tokens ch) s))
    (hc : ∀ c ∈ Osmium.codes s', Balanced (c.flatMap (tokens ch))) : Flow E ch s' where
  slots := by
    rw [hsem, hchan, hg.count_eq, hg.count_eq, hg.count_eq, hg.count_eq]
    exact h.slots
  items := by
    rw [hsem, hchan, hg.count_eq, hg.count_eq, hg.count_eq, hg.count_eq]
    exact h.items
  order := by
    rw [hchan]
    exact h.order
  codes := hc

/-- A thread enters `send` or `recv`: it has everything still before it. -/
theorem call (h : Flow E ch s) (hk : s.hart.code = k) (o : Op T) :
    Flow E ch (s.goto (o.code E ++ k)) := by
  have hctx := sameCtx_goto s (o.code E ++ k)
  obtain ⟨K, h1, h2⟩ := hctx.gather (tokens ch)
  have hs := h.slots
  have hi := h.items
  rw [hk] at h1
  rw [show (s.goto (o.code E ++ k)).hart.code = o.code E ++ k from rfl, List.flatMap_append,
    List.append_assoc, ← h1] at h2
  refine ⟨?_, ?_, h.order, hctx.all (fun hq => ?_) h.codes⟩
  · rw [h2]
    show (s.sem (.empty ch)).count + (s.chan ch).buf.length + _ + _ = _
    rcases op_tokens E o ch with ho | ho | ho <;> rw [ho] <;> simp <;> omega
  · rw [h2]
    show (s.sem (.full ch)).count + _ + _ = (s.chan ch).buf.length + _ + _
    rcases op_tokens E o ch with ho | ho | ho <;> rw [ho] <;> simp <;> omega
  · rw [hk] at hq
    show Balanced ((o.code E ++ k).flatMap (tokens ch))
    rw [List.flatMap_append]
    rcases op_tokens E o ch with ho | ho | ho <;> rw [ho]
    · exact hq
    · exact hq.send
    · exact hq.recv

end Flow

end Osmium.Sync
