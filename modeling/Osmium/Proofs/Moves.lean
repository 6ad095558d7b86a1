import Osmium.Proofs.Emits

namespace Osmium
open Lib Control Site Level

variable {T : Type} {s s' : Sys T}

/-- A move that is not kernel code's own: user code, an interrupt, or a body that
returns. Light code comes in front of the hart's or replaces what stood for the
body. -/
structure Drifts (s s' : Sys T) : Prop where
  rest : s' = { s with hart := s'.hart, phys := s'.phys }
  code : ∃ new tail, s'.hart.code = new ++ tail ∧ Light .inert new ∧
    (s.hart.code = tail ∨ tail = [] ∧ (s.hart.code = [.body] ∨ s.hart.code = [.boot] ∨
      s.hart.code = [.umode]))

namespace Drifts

theorem sameCtx (h : Drifts s s') : SameCtx s s' := by
  rw [h.rest]
  exact ⟨rfl, fun _ => rfl⟩

theorem gather (h : Drifts s s') {f : Instr T → List α} (hf : Null .inert f) :
    gather f s' = Osmium.gather f s := by
  obtain ⟨new, tail, hn, hl, ho⟩ := h.code
  obtain ⟨rest, h1, h2⟩ := h.sameCtx.gather f
  rw [h1, h2, hn, List.flatMap_append, hl.null hf, List.nil_append]
  rcases ho with ho | ⟨rfl, ho⟩
  · rw [ho]
  · rcases ho with ho | ho | ho <;> rw [ho, List.flatMap_singleton, hf _ (.inl rfl)] <;> rfl

theorem all (h : Drifts s s') {Q : List (Instr T) → Prop} (hnil : Q [])
    (hpush : ∀ x c, x.load = .inert → Q c → Q (x :: c)) (ha : ∀ c ∈ codes s, Q c) :
    ∀ c ∈ codes s', Q c := by
  obtain ⟨new, tail, hn, hl, ho⟩ := h.code
  refine h.sameCtx.all (fun hq => ?_) ha
  rw [hn]
  refine hl.append (fun x c hx => hpush x c (hx.elim id id)) ?_
  rcases ho with ho | ⟨rfl, _⟩
  · rw [← ho]
    exact hq
  · exact hnil

theorem any (h : Drifts s s') {R : List (Instr T) → Prop}
    (hpush : ∀ x c, x.load = .inert → R c → R (x :: c))
    (hidle : ¬R [.body] ∧ ¬R [.boot] ∧ ¬R [.umode]) (ha : ∃ c ∈ codes s, R c) :
    ∃ c ∈ codes s', R c := by
  obtain ⟨new, tail, hn, hl, ho⟩ := h.code
  refine h.sameCtx.any (fun hr => ?_) ha
  rcases ho with ho | ⟨_, ho | ho | ho⟩
  · rw [hn, ← ho]
    exact hl.append (fun x c hx => hpush x c (hx.elim id id)) hr
  · exact absurd (ho ▸ hr) hidle.1
  · exact absurd (ho ▸ hr) hidle.2.1
  · exact absurd (ho ▸ hr) hidle.2.2

end Drifts

theorem irq_light (E : Env) (i : Irq) : Light (T := T) .inert (i.code E) := by
  cases i with
  | timer => rfl
  | uart bytes =>
    induction bytes with
    | nil => rfl
    | cons byte bytes ih =>
      unfold Light at ih ⊢
      simp only [Irq.code, List.flatMap_cons, List.all_append, Bool.and_eq_true]
      exact ⟨rfl, ih⟩

/-- What the machine can do: run a piece of kernel code, enter a call of a kernel
thread or of `kmain`, or drift. -/
theorem step_cases (h : Holds S lvl top s) (move : Step E s s') :
    (∃ junk i k, s.hart.code = i :: k ∧ exec E junk s i k = .ok s') ∨
      (∃ (op : Op T) (k : _), (s.hart.code = [.body] ∨ s.hart.code = [.boot]) ∧ s.hart.code = k ∧
        s' = s.goto (op.code E ++ k)) ∨
      Drifts s s' := by
  have hlast : ∀ {x : Instr T} {k}, s.hart.code = x :: k →
      (x = .body ∨ x = .boot ∨ x = .umode) → k = [] := by
    intro x k hcode hx
    have hc := h.code
    rw [hcode] at hc
    rcases hx with rfl | rfl | rfl <;> cases hc <;> rfl
  cases move with
  | exec junk code run => exact .inl ⟨junk, _, _, code, run⟩
  | call op code =>
    obtain rfl := hlast code (.inl rfl)
    exact .inr (.inl ⟨op, _, .inl code, code, rfl⟩)
  | bootCall op _ code =>
    obtain rfl := hlast code (.inr (.inl rfl))
    exact .inr (.inl ⟨op, _, .inr code, code, rfl⟩)
  | leave code =>
    obtain rfl := hlast code (.inl rfl)
    exact .inr (.inr ⟨rfl, [.exit], [], rfl, rfl, .inr ⟨rfl, .inl code⟩⟩)
  | bootDone code =>
    obtain rfl := hlast code (.inr (.inl rfl))
    exact .inr (.inr ⟨rfl, [.schedLoop], [], rfl, rfl, .inr ⟨rfl, .inr (.inl code)⟩⟩)
  | interrupt irq on kernel =>
    refine .inr (.inr ⟨rfl, irq.code E ++ [.sretKernel], s.hart.code, ?_, ?_, .inl rfl⟩)
    · exact (List.append_assoc (irq.code E) [.sretKernel] s.hart.code).symm
    · exact (irq_light E irq).concat (.inl rfl)
  | userInterrupt irq code =>
    obtain rfl := hlast code (.inr (.inr rfl))
    refine .inr (.inr ⟨rfl, irq.code E ++ [.trapRet (Trap.frameOf s.hart)], [], ?_, ?_,
      .inr ⟨rfl, .inr (.inr code)⟩⟩)
    · exact (List.append_nil _).symm
    · exact (irq_light E irq).concat (.inl rfl)
  | userAlu regs pc _ code => exact .inr (.inr ⟨rfl, [], s.hart.code, rfl, rfl, .inl rfl⟩)
  | userStore va pa b code _ => exact .inr (.inr ⟨rfl, [], s.hart.code, rfl, rfl, .inl rfl⟩)
  | userTrap cause stval _ code _ =>
    obtain rfl := hlast code (.inr (.inr rfl))
    exact .inr (.inr ⟨rfl, [.kerneltrap _ cause stval], [], rfl, rfl, .inr ⟨rfl, .inr (.inr code)⟩⟩)

end Osmium
