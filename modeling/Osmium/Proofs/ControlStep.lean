import Osmium.Proofs.Control
import Osmium.Proofs.Frame

namespace Osmium.Control
open Lib Site Level

variable {T : Type} {s s' : Sys T}

theorem samePlace_of_serves (h : Serves s s') : SamePlace s s' where
  procs j := by
    have hj := congrArg (Option.map standing) (h.procs j)
    rw [Option.map_map, Option.map_map] at hj
    exact hj
  current := h.current
  sched := h.sched
  root := h.root
  satp := by rw [h.hart]
  stack := by rw [h.hart]
  scratch := by rw [h.hart]

theorem pushOff_reads {h : Hart T} (hr : (nest d q).Reads h) :
    (nest (d + 1) q).Reads (Spinlock.pushOff h) := by
  cases d with
  | zero => exact ⟨by simp [Spinlock.pushOff, hr.1], rfl, by simp [Spinlock.pushOff, hr.1, hr.2]⟩
  | succ d => exact ⟨by simp [Spinlock.pushOff, hr.1], rfl, by simp [Spinlock.pushOff, hr.1, hr.2.2]⟩

theorem popOff_eq {h h' : Hart T} (hp : Spinlock.popOff h = .ok h') :
    h.sie = false ∧ 0 < h.noff ∧ h' = { h with
      noff := h.noff - 1
      sie := if h.noff = 1 ∧ h.intena then true else h.sie } := by
  unfold Spinlock.popOff at hp
  split at hp
  · cases hp
  · rename_i hs
    split at hp
    · cases hp
    · rename_i hn
      exact ⟨by simpa using hs, Nat.pos_of_ne_zero hn, (Except.ok.inj hp).symm⟩

theorem popOff_reads {h h' : Hart T} (hr : (nest (d + 1) q).Reads h)
    (hp : Spinlock.popOff h = .ok h') : (nest d q).Reads h' := by
  obtain ⟨h1, _, rfl⟩ := popOff_eq hp
  obtain ⟨r1, r2, r3⟩ := hr
  cases d with
  | zero => exact ⟨by simp [r1], by cases q <;> simp [r1, r2, r3]⟩
  | succ d => exact ⟨by simp [r1], by simp [r1, r2], r3⟩

theorem popOff_held {h h' : Hart T} (hr : held.Reads h) (hp : Spinlock.popOff h = .ok h') :
    loose.Reads h' := by
  obtain ⟨_, _, rfl⟩ := popOff_eq hp
  exact show h.noff - 1 = 0 by rw [hr.1]

/-- The part of the hart that neither code nor interrupt bookkeeping changes. -/
theorem popOff_place {h h' : Hart T} (hp : Spinlock.popOff h = .ok h') :
    h'.satp = h.satp ∧ h'.stack = h.stack ∧ h'.sscratch = h.sscratch := by
  obtain ⟨_, _, rfl⟩ := popOff_eq hp
  exact ⟨rfl, rfl, rfl⟩

theorem Level.Reads.congr {lvl : Level} {h h' : Hart T} (hr : lvl.Reads h) (hn : h'.noff = h.noff)
    (hs : h'.sie = h.sie) (hi : h'.intena = h.intena) : lvl.Reads h' := by
  cases lvl with
  | nest d q =>
    cases d with
    | zero => exact ⟨hn.trans hr.1, hs.trans hr.2⟩
    | succ d => exact ⟨hn.trans hr.1, hs.trans hr.2.1, hi.trans hr.2.2⟩
  | loose => exact hn.trans hr
  | held => exact ⟨hn.trans hr.1, hs.trans hr.2⟩

/-- Enabled interrupts mean no nesting. -/
theorem Level.Reads.on {lvl : Level} {h : Hart T} (hr : lvl.Reads h) (on : h.sie = true) :
    (lvl = nest 0 true ∨ lvl = loose) ∧ h.noff = 0 := by
  cases lvl with
  | nest d q =>
    cases d with
    | zero => exact ⟨.inl (by rw [← hr.2, on]), hr.1⟩
    | succ d => rw [hr.2.1] at on; cases on
  | loose => exact ⟨.inr rfl, hr⟩
  | held => rw [hr.2] at on; cases on

theorem open_not_deep {S : Site} (h : S.isOpen = true) : S.isDeep = false := by
  cases S <;> first | rfl | cases h

theorem deep_pop {S : Site} (h : S.isOpen = true ∨ S.isDeep = true ∧ 0 < d)
    (hd : S.isDeep = true) : 0 < d := by
  rcases h with h | h
  · rw [open_not_deep h] at hd
    cases hd
  · exact h.2

theorem open_deep {S : Site} {P : Prop} (h : S.isOpen = true) (hd : S.isDeep = true) : P := by
  rw [open_not_deep h] at hd
  cases hd

namespace Holds

/-- A move that leaves the place as it is. -/
theorem next (h : Holds S lvl top s) (hs : SamePlace s s') (hr : lvl'.Reads s'.hart)
    (hd : S.isDeep = true → 0 < s'.hart.noff) (hc : Code s.kernelRoot top S lvl' s'.hart.code) :
    Controlled s' :=
  ⟨S, lvl', top, hr, hd, h.place.same hs, by rw [hs.root]; exact hc⟩

/-- Kernel work, then other code of the same kind. -/
theorem served (h : Holds S lvl top s) (hs : Serves s s') (hc : Code s.kernelRoot top S lvl c) :
    Controlled (s'.goto c) := by
  have hp := samePlace_of_serves hs
  refine h.next ⟨hp.procs, hp.current, hp.sched, hp.root, hp.satp, hp.stack, hp.scratch⟩ ?_ ?_ hc
  · refine h.reads.congr ?_ ?_ ?_ <;> simp [Sys.goto, hs.hart]
  · intro hd
    have hn := h.deep hd
    simpa [Sys.goto, hs.hart] using hn

theorem goto (h : Holds S lvl top s) (hc : Code s.kernelRoot top S lvl c) :
    Controlled (s.goto c) := h.served (.refl s) hc

/-- A move of the interrupt bookkeeping alone. -/
theorem irq (h : Holds S lvl top s) (hh : h'.satp = s.hart.satp ∧ h'.stack = s.hart.stack ∧
      h'.sscratch = s.hart.sscratch) (hr : lvl'.Reads h') (hd : S.isDeep = true → 0 < h'.noff)
    (hc : Code s.kernelRoot top S lvl' k) : Controlled (Sys.goto { s with hart := h' } k) :=
  h.next ⟨fun _ => rfl, rfl, rfl, rfl, hh.1, hh.2.1, hh.2.2⟩ (hr.congr rfl rfl rfl) hd hc

theorem push (h : Holds S (nest d q) top s) (hc : Code s.kernelRoot top S (nest (d + 1) q) k) :
    Controlled (Sys.goto { s with hart := Spinlock.pushOff s.hart } k) :=
  h.irq ⟨rfl, rfl, rfl⟩ (pushOff_reads h.reads) (fun _ => Nat.succ_pos _) hc

theorem pop (h : Holds S (nest (d + 1) q) top s) (hp : Spinlock.popOff s.hart = .ok h')
    (site : S.isOpen = true ∨ S.isDeep = true ∧ 0 < d)
    (hc : Code s.kernelRoot top S (nest d q) k) : Controlled (Sys.goto { s with hart := h' } k) := by
  have hr := popOff_reads h.reads hp
  refine h.irq (popOff_place hp) hr ?_ hc
  intro hd
  have h0 := deep_pop site hd
  cases d with
  | zero => exact absurd h0 (Nat.lt_irrefl 0)
  | succ d => exact hr.1 ▸ Nat.succ_pos d

end Holds

/-- Changes in the slot on the hart do not concern the others. -/
theorem AtThread.setProc (h : AtThread s i p) (g : Process T → Process T)
    (hg : (g p).context.code = []) : AtThread (s.setProc i g) i (g p) where
  current := h.current
  here := by rw [Sys.proc_setProc, if_pos rfl, h.here]; rfl
  empty := hg
  alone := by
    intro j q hq hj
    rw [Sys.proc_setProc, if_neg hj] at hq
    exact h.alone j q hq hj
  contexts := by
    intro j q hq hj
    rw [Sys.proc_setProc, if_neg hj] at hq
    exact h.contexts j q hq hj
  back := h.back
  backStack := h.backStack

/-- `AtThread` does not look at the hart. -/
theorem AtThread.hart (h : AtThread s i p) (hart : Hart T) : AtThread { s with hart := hart } i p :=
  { h with }

namespace Holds

/-- The current process gives up `Running`. -/
theorem part (h : Place thread top s) (hrd : (nest 1 q).Reads s.hart)
    (hs : Proc.setState s st = .ok s') (hr : st ≠ .running) (hz : st = .zombie ↔ dead = true)
    (hc : Code s.kernelRoot top (parted dead) (nest 1 q) c) : Controlled (s'.goto c) := by
  obtain ⟨i, p, hcur, hp, rfl⟩ := Proc.setState_eq hs
  obtain ⟨i', p', ht, _, ho, hsat⟩ := h
  obtain rfl := Option.some.inj (hcur.symm.trans ht.current)
  obtain rfl := Option.some.inj (hp.symm.trans ht.here)
  have ht' := ht.setProc (fun p => { p with state := st }) ht.empty
  refine ⟨parted dead, nest 1 q, top, hrd.congr rfl rfl rfl, fun _ => ?_,
    ⟨i, _, ht'.hart _, hr, hz, ho, hsat⟩, hc⟩
  exact hrd.1 ▸ Nat.one_pos

/-- Into the scheduler. -/
theorem leave (h : Holds (parted dead) (nest 1 q) top s)
    (hk : if dead then k = [.unreachable] else Code s.kernelRoot top thread (nest 1 q) k)
    (run : Proc.sched s k = .ok s') : Controlled s' := by
  obtain ⟨hn, i, p, hcur, hp, hr, rfl⟩ := Proc.sched_eq run
  obtain ⟨i', p', ht, _, hz, ⟨ho1, ho2, ho3⟩, hsat⟩ := h.place
  obtain rfl := Option.some.inj (hcur.symm.trans ht.current)
  obtain rfl := Option.some.inj (hp.symm.trans ht.here)
  obtain ⟨top', hback⟩ := ht.back
  have hother : ∀ j r, (s.setProc i (fun p => { p with context := Proc.saved s k })).proc j =
      some r → j ≠ i → s.proc j = some r := by
    intro j r hq hj
    rwa [Sys.proc_setProc, if_neg hj] at hq
  refine ⟨returned, held, top', ⟨hn, h.reads.2.1⟩, fun _ => hn.symm ▸ Nat.one_pos, ?_, hback⟩
  refine ⟨⟨ht.backStack, ho3, rfl, ?_⟩, i, { p with context := Proc.saved s k }, ?_, hcur, ?_, hr,
    hsat⟩
  · intro j r hq
    by_cases hj : j = i
    · subst hj
      have hr' : r = { p with context := Proc.saved s k } := by
        have hq' : (s.setProc j (fun p => { p with context := Proc.saved s k })).proc j = some r := hq
        rw [Sys.proc_setProc, if_pos rfl, hp] at hq'
        exact (Option.some.inj hq').symm
      subst hr'
      refine ⟨fun hzr => ?_, fun hzr => ?_⟩
      · rw [if_pos (hz.mp hzr)] at hk
        exact ⟨_, by rw [hk]; rfl⟩
      · have hd : dead = false := by simpa using fun hd => hzr (hz.mpr hd)
        rw [hd, if_neg Bool.false_ne_true] at hk
        have hi : q = s.hart.intena := h.reads.2.2.symm
        refine ⟨?_, ho2.trans (by rw [ho1])⟩
        rw [ho1]
        exact .setIntena (hi ▸ hk)
    · exact ht.contexts j r (hother j r hq hj) hj
  · intro j r hq hj
    exact ht.alone j r (hother j r hq hj) hj
  · show (s.setProc i _).proc i = _
    rw [Sys.proc_setProc, if_pos rfl, hp]
    rfl

/-- Out of the scheduler, into the thread it picked. -/
theorem resume (h : Holds (ready i) (nest 1 true) top s)
    (hk : Code s.kernelRoot top returned held k) (run : Proc.swtchTo s i k = .ok s') :
    Controlled s' := by
  obtain ⟨p, hp, rfl⟩ := Proc.swtchTo_eq run
  obtain ⟨hb, ha, hcur, p', hp', hr, hsat⟩ := h.place
  obtain rfl := Option.some.inj (hp.symm.trans hp')
  obtain ⟨hcode, hstack⟩ := (hb.contexts i p hp).2 (by rw [hr]; exact State.noConfusion)
  have hother : ∀ j r,
      (s.setProc i (fun p => { p with context := ⟨[], p.context.stack⟩ })).proc j = some r →
      j ≠ i → s.proc j = some r := by
    intro j r hq hj
    rwa [Sys.proc_setProc, if_neg hj] at hq
  refine ⟨thread, held, p.kstackTop, ⟨h.reads.1, h.reads.2.1⟩, fun hd => Bool.noConfusion hd,
    ⟨i, { p with context := ⟨[], p.context.stack⟩ }, ?_, hr, ⟨rfl, hstack, hb.scratch⟩, hsat⟩, hcode⟩
  refine
    { current := hcur
      here := ?_
      empty := rfl
      alone := fun j r hq hj => ha j r (hother j r hq hj) hj
      contexts := fun j r hq hj => hb.contexts j r (hother j r hq hj)
      back := ⟨top, hk⟩
      backStack := hb.stack }
  show (s.setProc i _).proc i = _
  rw [Sys.proc_setProc, if_pos rfl, hp]
  rfl

theorem pick (h : Holds scanned (nest 1 true) top s) (run : Proc.pick s = .ok s') :
    Controlled s' := by
  obtain ⟨hb, hcur, hsat, hst⟩ := h.place
  rcases Proc.pick_eq run with ⟨_, rfl⟩ | ⟨i, p, _, hp, hr, rfl⟩
  · refine ⟨Site.boot, nest 1 true, top, h.reads.congr rfl rfl rfl, fun hd => Bool.noConfusion hd,
      ⟨{ hb with }, hcur, hsat, fun j q hq => ⟨(hst j q hq).1, fun _ => trivial⟩⟩, ?_⟩
    exact .popOff (.inl rfl) (.intrOn rfl (.wfi .schedLoop))
  · have hproc : ∀ j, (s.setProc i (fun p => { p with state := .running })).proc j =
        if j = i then some { p with state := .running } else s.proc j := by
      intro j
      rw [Sys.proc_setProc]
      split
      · rename_i hj
        rw [hj, hp]
        rfl
      · rfl
    refine ⟨picked i p.pageTable, nest 1 true, top, h.reads.congr rfl rfl rfl,
      fun _ => h.reads.1 ▸ Nat.one_pos, ?_, .switchPicked (.swtchTo (Code.afterSwitch s))⟩
    refine ⟨⟨hb.stack, hb.scratch, hb.back, ?_⟩, ?_, rfl, hsat,
      { p with state := .running }, (hproc i).trans (if_pos rfl), rfl, rfl⟩
    · intro j q hq
      have hq := (hproc j).symm.trans hq
      split at hq
      · obtain rfl := Option.some.inj hq
        have hc := (hb.contexts i p hp).2 (by rw [hr]; exact State.noConfusion)
        exact ⟨fun hz => State.noConfusion hz, fun _ => hc⟩
      · exact hb.contexts j q hq
    · intro j q hq hj
      have hq := (hproc j).symm.trans hq
      rw [if_neg hj] at hq
      exact ⟨(hst j q hq).1, (hst j q hq).2⟩

theorem reap (h : Holds S (nest 1 true) top s) (hpl : AtBoot s ∧ Still s (fun j => i ≤ j))
    (run : Proc.reapLoop E s i = .ok s') : Controlled s' := by
  obtain ⟨hb, hcur, hsat, hst⟩ := hpl
  have hpos : 0 < s.hart.noff := h.reads.1 ▸ Nat.one_pos
  unfold Proc.reapLoop at run
  by_cases hi : i < s.procs.length
  · rw [if_pos hi] at run
    simp only [bind_ok, Except.ok.injEq] at run
    obtain ⟨s₁, hr, rfl⟩ := run
    rcases Proc.reap_eq hr with ⟨rfl, hz⟩ | ⟨p, _, s₂, hp, hz, _, _, hm, rfl⟩
    · refine ⟨reaping (i + 1), nest 1 true, top, h.reads.congr rfl rfl rfl, fun _ => hpos,
        ⟨{ hb with }, hcur, hsat, fun j q hq => ⟨(hst j q hq).1, fun hzq => ?_⟩⟩, .reap⟩
      rcases Nat.lt_or_ge i j with hj | hj
      · exact hj
      · have := (hst j q hq).2 hzq
        obtain rfl : j = i := by omega
        exact absurd hzq (hz q hq)
    · have hproc : ∀ j, ((s.procs.set i none)[j]?).join = if j = i then none else s.proc j :=
        fun j => Proc.proc_set _ _ _ _ hi
      have hother : ∀ j q, ((s.procs.set i none)[j]?).join = some q → j ≠ i ∧ s.proc j = some q := by
        intro j q hq
        rw [hproc j] at hq
        split at hq
        · cases hq
        · rename_i hj
          exact ⟨hj, hq⟩
      rw [hm]
      refine ⟨reaping (i + 1), nest 1 true, top, h.reads.congr rfl rfl rfl, fun _ => hpos,
        ⟨⟨hb.stack, hb.scratch, hb.back, fun j q hq => hb.contexts j q (hother j q hq).2⟩, hcur, hsat,
          fun j q hq => ?_⟩, .reap⟩
      obtain ⟨hj, hq⟩ := hother j q hq
      refine ⟨(hst j q hq).1, fun hzq => ?_⟩
      have := (hst j q hq).2 hzq
      omega
  · rw [if_neg hi] at run
    obtain rfl := Except.ok.inj run
    refine ⟨scanned, nest 1 true, top, h.reads.congr rfl rfl rfl, fun _ => hpos,
      ⟨{ hb with }, hcur, hsat, fun j q hq => ⟨(hst j q hq).1, fun hzq => ?_⟩⟩, .pick⟩
    have hj := (hst j q hq).2 hzq
    have hn : s.procs[j]? = none := List.getElem?_eq_none (by omega)
    simp [Sys.goto, Sys.proc, hn] at hq

end Holds

/-- A fresh process can be resumed at `thread_entry`. -/
theorem fresh_ctx (kroot : Nat) (d : ProcData) : Ctx (T := T) kroot (Proc.fresh d) :=
  ⟨fun hz => State.noConfusion hz, fun _ => ⟨Code.threadEntry, rfl⟩⟩

theorem fresh_state (d : ProcData) :
    (Proc.fresh (T := T) d).state ≠ .running ∧ (Proc.fresh (T := T) d).state ≠ .zombie :=
  ⟨State.noConfusion, State.noConfusion⟩

/-- A new process in an empty slot. -/
theorem Place.publish {S : Site} (h : Place S top s) (hS : S.isOpen = true) (hn : s.proc slot = none)
    (hproc : ∀ j, s'.proc j = if j = slot then some (Proc.fresh d) else s.proc j)
    (hcur : s'.current = s.current) (hctx : s'.schedulerCtx = s.schedulerCtx)
    (hroot : s'.kernelRoot = s.kernelRoot) (hhart : s'.hart = s.hart) : Place S top s' := by
  have hother : ∀ j q, s'.proc j = some q → q = Proc.fresh d ∨ s.proc j = some q := by
    intro j q hq
    rw [hproc j] at hq
    split at hq
    · exact .inl (Option.some.inj hq).symm
    · exact .inr hq
  cases S with
  | thread =>
    obtain ⟨i, p, ht, hr, ho, hsat⟩ := h
    have hi : i ≠ slot := by
      rintro rfl
      rw [ht.here] at hn
      cases hn
    refine ⟨i, p, ?_, hr, by unfold OnStack at ho ⊢; rw [hhart]; exact ho, by rw [hhart]; exact hsat⟩
    refine
      { current := hcur.trans ht.current
        here := by rw [hproc, if_neg hi]; exact ht.here
        empty := ht.empty
        alone := ?_
        contexts := ?_
        back := by rw [hroot, hctx]; exact ht.back
        backStack := by rw [hctx]; exact ht.backStack }
    · intro j q hq hj
      rcases hother j q hq with rfl | hq
      · exact fresh_state d
      · exact ht.alone j q hq hj
    · intro j q hq hj
      rw [hroot]
      rcases hother j q hq with rfl | hq
      · exact fresh_ctx _ d
      · exact ht.contexts j q hq hj
  | boot =>
    obtain ⟨hb, hc, hsat, hst⟩ := h
    refine ⟨⟨by rw [hhart]; exact hb.stack, by rw [hhart]; exact hb.scratch,
      by rw [hctx]; exact hb.back, ?_⟩, hcur.trans hc, by rw [hhart, hroot]; exact hsat, ?_⟩
    · intro j q hq
      rw [hroot]
      rcases hother j q hq with rfl | hq
      · exact fresh_ctx _ d
      · exact hb.contexts j q hq
    · intro j q hq
      rcases hother j q hq with rfl | hq
      · exact ⟨(fresh_state d).1, fun _ => trivial⟩
      · exact hst j q hq
  | _ => cases hS

namespace Holds

theorem publish (h : Holds S lvl top s) (hS : S.isOpen = true) (run : Proc.publish s d = .ok s')
    (hc : Code s.kernelRoot top S lvl k) : Controlled (s'.goto k) := by
  obtain ⟨s₁, slot, hg, hn, he, hproc, _⟩ := Proc.publish_eq run
  have hs : Serves s s₁ := by
    rcases hg with rfl | hg
    · exact .refl _
    · exact .growProcs hg
  have hcur : s'.current = s.current := by rw [he]; exact hs.current
  have hctx : s'.schedulerCtx = s.schedulerCtx := by rw [he]; exact hs.sched
  have hroot : s'.kernelRoot = s.kernelRoot := by rw [he]; exact hs.root
  have hhart : s'.hart = s.hart := by rw [he]; exact hs.hart
  have hpl := h.place.publish hS hn hproc hcur hctx hroot hhart
  have h' : Holds S lvl top { s' with hart := { s'.hart with code := s.hart.code } } :=
    ⟨by rw [hhart]; exact h.reads, by rw [hhart]; exact h.deep,
      hpl.same ⟨fun _ => rfl, rfl, rfl, rfl, rfl, rfl, rfl⟩, by rw [hroot]; exact h.code⟩
  exact h'.goto (by rw [hroot]; exact hc)

/-- `exec` hands the process its new table. -/
theorem commit (h : Holds thread (nest 0 false) top s)
    (tab : ∀ j q, s.proc j = some q → q.pageTable = q.userTable.getD s.kernelRoot)
    (run : Proc.execCommit s prog table = .ok s') : Controlled s' := by
  unfold Proc.execCommit at run
  split at run
  · cases run
  · rename_i i p hcp
    obtain ⟨hcur, hp⟩ := Sys.currentProc_eq hcp
    simp only [bind_ok, Except.ok.injEq] at run
    obtain ⟨s₁, hd, rfl⟩ := run
    have hm := OnlyMem.dropFrame hd
    obtain ⟨i', p', ht, hr, ⟨ho1, ho2, ho3⟩, hsat⟩ := h.place
    obtain rfl := Option.some.inj (hcur.symm.trans ht.current)
    obtain rfl := Option.some.inj (hp.symm.trans ht.here)
    have ht₁ : AtThread s₁ i p := by
      rw [hm]
      exact { ht with }
    have ht' := ht₁.setProc (Proc.takeSpace prog table) ht.empty
    have hh : s₁.hart = s.hart := by rw [hm]
    have hk : s₁.kernelRoot = s.kernelRoot := by rw [hm]
    refine ⟨moving p.userTable table, nest 0 false, top, ?_, fun hd => Bool.noConfusion hd,
      ⟨i, _, ht'.hart _, hr, ⟨ho1, ?_, ?_⟩, ?_, rfl⟩, ?_⟩
    · refine h.reads.congr ?_ ?_ ?_ <;> simp [Sys.goto, Sys.setProc, hh]
    · simpa [Sys.goto, Sys.setProc, hh] using ho2
    · simpa [Sys.goto, Sys.setProc, hh] using ho3
    · show s₁.hart.satp = p.userTable.getD s₁.kernelRoot
      rw [hh, hk, hsat]
      exact tab i p hp
    · have hc : Code (T := T) s.kernelRoot top thread (nest 0 false)
          [.enterUser Vm.userText Vm.userStackTop p.kstackTop] := by
        rw [ho1]
        exact .enterUser
      show Code s₁.kernelRoot top (moving p.userTable table) (nest 0 false) (Proc.execRest table p)
      unfold Proc.execRest
      rw [hk]
      cases p.userTable with
      | none => exact .intrOffMoving (.switchMoving nofun hc)
      | some t =>
        refine .intrOffMoving (.switchMoving (fun u hu => ?_) (.freeUserTable hc))
        rw [← Option.some.inj hu]
        exact List.mem_cons_self

/-- Down to U-mode, with the stack to come back to in `sscratch`. -/
theorem toUser (h : Holds thread (nest 0 q) top s) (hart : Hart T) (hc : hart.code = [.umode])
    (hst : hart.stack = .user) (hsc : hart.sscratch = top) (hsa : hart.satp = s.hart.satp)
    (hn : hart.noff = s.hart.noff) : Controlled { s with hart := hart } := by
  obtain ⟨i, p, ht, hr, ⟨ho, _, _⟩, hsat⟩ := h.place
  refine ⟨user, loose, top, ?_, fun hd => Bool.noConfusion hd,
    ⟨i, p, ht.hart _, hr, ho, hst, hsc, hsa.trans hsat⟩, ?_⟩
  · exact hn.trans h.reads.1
  · show Code s.kernelRoot top user loose hart.code
    rw [hc]
    exact .umode

theorem trapRet (h : Holds thread (nest 0 q) top s) (f : TrapFrame) :
    Controlled (Trap.ret s f) := by
  obtain ⟨i, p, _, _, ⟨_, ho, _⟩, _⟩ := h.place
  refine h.toUser _ rfl rfl ?_ rfl rfl
  simp [ho]

/-- A trap from U-mode. -/
theorem fromUser (h : Holds user loose top s) (hc : Code s.kernelRoot top thread (nest 0 false) c) :
    Controlled (Trap.fromUser s c) := by
  obtain ⟨i, p, ht, hr, hk, _, hsc, hsat⟩ := h.place
  exact ⟨thread, nest 0 false, top, ⟨h.reads, rfl⟩, fun hd => Bool.noConfusion hd,
    ⟨i, p, ht.hart _, hr, ⟨hk, by simp [Trap.fromUser, hsc], rfl⟩, hsat⟩, hc⟩

/-- An interrupt of kernel code lands only where interrupts may be on. -/
theorem fromKernel (h : Holds S lvl top s) (on : s.hart.sie = true) (kernel : s.hart.stack ≠ .user)
    (hc : ∀ S k, S.isOpen = true → Code s.kernelRoot top S (nest 0 false) k →
      Code s.kernelRoot top S (nest 0 false) (c ++ k)) : Controlled (Trap.fromKernel s c) := by
  obtain ⟨hl, hn⟩ := h.reads.on on
  have hopen : S.isOpen = true := by
    cases S with
    | thread => rfl
    | boot => rfl
    | user =>
      obtain ⟨i, p, _, _, _, hst, _⟩ := h.place
      exact absurd hst kernel
    | moving old new =>
      have hcode := h.code
      generalize s.hart.code = code at hcode
      rcases hl with rfl | rfl <;> cases hcode <;> rename_i site _ <;> simp [isOpen, isDeep] at site
    | _ => exact absurd (h.deep rfl) (hn ▸ Nat.lt_irrefl 0)
  have hcode : Code s.kernelRoot top S (nest 0 true) s.hart.code := by
    have hcode := h.code
    rcases hl with rfl | rfl
    · exact hcode
    · exact hcode.of_loose hopen
  exact h.next ⟨fun _ => rfl, rfl, rfl, rfl, rfl, rfl, rfl⟩
    (show (nest 0 false).Reads _ from ⟨hn, rfl⟩) (fun hd => open_deep hopen hd)
    (hc S _ hopen (.sretKernel hopen hcode))

end Holds
end Osmium.Control
