import Osmium.Proofs.ControlRun

namespace Osmium
open Lib Control

variable {T : Type}

/-- All code there is: the hart's, the scheduler's, and that of every slot. -/
def codes (s : Sys T) : List (List (Instr T)) :=
  s.hart.code :: s.schedulerCtx.code :: s.procs.reduceOption.map (fun p => p.context.code)

/-- What all code contributes. -/
def gather (f : Instr T → List α) (s : Sys T) : List α := (codes s).flatMap (fun c => c.flatMap f)

/-- Code that has nothing in its hands, or only what kind `κ` is about. -/
def Light (κ : Kind) (c : List (Instr T)) : Prop :=
  c.all (fun x => decide (x.load = .inert ∨ x.load = κ)) = true

/-- A list of slots up to what `g` sees of their processes. -/
theorem reduceOption_congr {l l' : List (Option α)} (g : α → β)
    (h : ∀ j : Nat, ((l'[j]?).join).map g = ((l[j]?).join).map g) :
    l'.reduceOption.map g = l.reduceOption.map g := by
  induction l' generalizing l with
  | nil =>
    induction l with
    | nil => rfl
    | cons o l ih =>
      have h0 := h 0
      cases o with
      | none => exact ih (fun j => h (j + 1))
      | some x => cases h0
  | cons o' l' ih =>
    cases l with
    | nil =>
      have h0 := h 0
      cases o' with
      | none => exact ih (l := []) (fun j => by simpa using h (j + 1))
      | some x => cases h0
    | cons o l =>
      have h0 := h 0
      have ht := ih (l := l) (fun j => h (j + 1))
      cases o' with
      | none =>
        cases o with
        | none => exact ht
        | some x => cases h0
      | some x' =>
        cases o with
        | none => cases h0
        | some x =>
          simp only [List.reduceOption_cons_of_some, List.map_cons]
          rw [ht, Option.some.inj h0]

/-- Neither the scheduler's saved code nor any process's changes. -/
structure SameCtx (s s' : Sys T) : Prop where
  sched : s'.schedulerCtx.code = s.schedulerCtx.code
  procs : ∀ j, (s'.proc j).map (fun p => p.context.code) =
    (s.proc j).map (fun p => p.context.code)

theorem SameCtx.codes {s s' : Sys T} (h : SameCtx s s') :
    codes s' = s'.hart.code :: (codes s).tail := by
  unfold Osmium.codes
  rw [h.sched, reduceOption_congr (fun p : Process T => p.context.code) h.procs]
  rfl

theorem sameCtx_goto (s : Sys T) (c : List (Instr T)) : SameCtx s (s.goto c) := ⟨rfl, fun _ => rfl⟩

namespace SameCtx

variable {s s' : Sys T}

/-- A property of all code is then one of the hart's. -/
theorem all (h : SameCtx s s') {Q : List (Instr T) → Prop} (hq : Q s.hart.code → Q s'.hart.code)
    (ha : ∀ c ∈ Osmium.codes s, Q c) : ∀ c ∈ Osmium.codes s', Q c := by
  rw [h.codes]
  intro c hc
  rcases List.mem_cons.mp hc with rfl | hc
  · exact hq (ha _ List.mem_cons_self)
  · exact ha c (List.mem_of_mem_tail hc)

theorem any (h : SameCtx s s') {R : List (Instr T) → Prop} (hr : R s.hart.code → R s'.hart.code)
    (ha : ∃ c ∈ Osmium.codes s, R c) : ∃ c ∈ Osmium.codes s', R c := by
  rw [h.codes]
  obtain ⟨c, hc, hrc⟩ := ha
  rcases List.mem_cons.mp hc with rfl | hc
  · exact ⟨_, List.mem_cons_self, hr hrc⟩
  · exact ⟨c, List.mem_cons_of_mem _ hc, hrc⟩

/-- What the code of the hart contributes, and the rest. -/
theorem gather (h : SameCtx s s') (f : Instr T → List α) :
    ∃ rest, gather f s = s.hart.code.flatMap f ++ rest ∧
      Osmium.gather f s' = s'.hart.code.flatMap f ++ rest := by
  refine ⟨(Osmium.codes s).tail.flatMap (fun c => c.flatMap f), rfl, ?_⟩
  unfold Osmium.gather
  rw [h.codes, List.flatMap_cons]

end SameCtx

theorem sameCtx_of_place {s s' : Sys T} (h : SamePlace s s') : SameCtx s s' where
  sched := by rw [h.sched]
  procs j := by
    have hj := congrArg (Option.map (fun t : Bool × Bool × Context T × Nat × Nat => t.2.2.1.code))
      (h.procs j)
    rw [Option.map_map, Option.map_map] at hj
    exact hj

/-- Memory, and of each process everything but its state and context. -/
structure SameMemory (s s' : Sys T) : Prop where
  phys : s'.phys = s.phys
  heap : s'.heap = s.heap
  nextPid : s'.nextPid = s.nextPid
  procsPtr : s'.procsPtr = s.procsPtr
  procsCap : s'.procsCap = s.procsCap
  boxes : s'.boxes = s.boxes
  data : ∀ j, (s'.proc j).map Process.toProcData = (s.proc j).map Process.toProcData

/-- Of a process, who it is and what it is doing. -/
def status (p : Process T) : Nat × State := (p.pid, p.state)

/-- What the piece that gives up the hart leaves the caller in. -/
inductive Gives (E : Env) : Instr T → State → Prop where
  | yieldBody : Gives E .yieldBody .runnable
  | sleepMark (cause : Cause) : Gives E (.sleepMark cause) (.sleeping (cause.chan E))
  | semCheck (a : SemId) : Gives E (.semCheck a) (.sleeping (Sync.chanOf E a))
  | exitMark : Gives E .exitMark .zombie

/-- What running the piece `i` can do to a slot. -/
inductive Move (E : Env) (i : Instr T) (current : Option Nat) (slot : Nat) :
    Option (Process T) → Option (Process T) → Prop where
  | keep (same : o'.map status = o.map status) : Move E i current slot o o'
  | pick (piece : i = .pick) (was : p.state = .runnable) :
      Move E i current slot (some p) (some { p with state := .running })
  | give (piece : Gives E i st) (caller : current = some slot) (was : p.state = .running) :
      Move E i current slot (some p) (some { p with state := st })
  | wake (piece : i = .wakeAll c) (was : p.state = .sleeping c) :
      Move E i current slot (some p) (some { p with state := .runnable })
  | reap (piece : i = .reap slot) (was : p.state = .zombie) : Move E i current slot (some p) none
  | born (piece : i = .publish d) : Move E i current slot none (some (Proc.fresh d))

theorem Move.refl {E : Env} {i : Instr T} (o : Option (Process T)) : Move E i cur j o o := .keep rfl

theorem Move.of_serves {s s' : Sys T} (h : Serves s s') {E : Env} {i : Instr T} (j : Nat) :
    Move E i s.current j (s.proc j) (s'.proc j) := by
  have hj := congrArg (Option.map status) (h.procs j)
  rw [Option.map_map, Option.map_map] at hj
  exact .keep hj

/-- A change to one process only. -/
theorem Move.setProc {E : Env} {i : Instr T} (s : Sys T) (l : Nat) (g : Process T → Process T)
    (h : ∀ p, s.proc l = some p → Move E i s.current l (some p) (some (g p))) (j : Nat) :
    Move E i s.current j (s.proc j) ((s.setProc l g).proc j) := by
  rw [Sys.proc_setProc]
  split
  · rename_i hj
    subst hj
    cases hp : s.proc j with
    | none => exact .refl _
    | some p => exact h p hp
  · exact .refl _

/-- What running the piece `i` in front of `k` leaves alone. All code but the
hart's stays, except for what a new thread starts with and what a dead one never
gets to run. -/
structure Emits (E : Env) (i : Instr T) (k : List (Instr T)) (s s' : Sys T) : Prop where
  root : s'.kernelRoot = s.kernelRoot
  moves : ∀ j, Move E i s.current j (s.proc j) (s'.proc j)
  memory : i.kind ≠ .space → SameMemory s s'
  sync : i.kind ≠ .sync → s'.sem = s.sem ∧ s'.chan = s.chan
  turns : ∃ new gone born L, (codes s).Perm ((i :: k) :: (gone ++ L)) ∧
    (codes s').Perm ((new ++ k) :: (born ++ L)) ∧ Light i.kind new ∧
    (∀ c ∈ gone, ∃ b, c = [.setIntena b, .unreachable]) ∧ ∀ c ∈ born, c = Proc.threadEntry

theorem proc_slot {s : Sys T} (h : s.proc i = some p) : s.procs[i]? = some (some p) := by
  unfold Sys.proc at h
  rcases hq : s.procs[i]? with _ | _ | q
  · simp [hq] at h
  · simp [hq] at h
  · simpa [hq] using h

/-- Processes around one slot. -/
theorem procs_split {s : Sys T} (h : s.proc i = some p) :
    ∃ L, s.procs.reduceOption.Perm (p :: L) ∧
      (∀ g, (s.setProc i g).procs.reduceOption.Perm (g p :: L)) ∧
      (s.procs.set i none).reduceOption = L := by
  obtain ⟨pre, post, hl, hset, hmod⟩ := split_at (proc_slot h)
  have hperm : ∀ q, (pre ++ some q :: post).reduceOption.Perm
      (q :: (pre.reduceOption ++ post.reduceOption)) := by
    intro q
    rw [List.reduceOption_append, List.reduceOption_cons_of_some]
    exact List.perm_middle
  refine ⟨pre.reduceOption ++ post.reduceOption, by rw [hl]; exact hperm p, ?_, ?_⟩
  · intro g
    show (s.procs.modify i (Option.map g)).reduceOption.Perm _
    rw [hmod]
    exact hperm (g p)
  · rw [hset, List.reduceOption_append, List.reduceOption_cons_of_none]

theorem data_setProc (s : Sys T) (i j : Nat) (g : Process T → Process T)
    (hg : ∀ p, (g p).toProcData = p.toProcData) :
    ((s.setProc i g).proc j).map Process.toProcData = (s.proc j).map Process.toProcData := by
  rw [Sys.proc_setProc]
  split
  · cases s.proc j with
    | none => rfl
    | some p => exact congrArg some (hg p)
  · rfl

theorem ctx_setProc (s : Sys T) (i j : Nat) (g : Process T → Process T)
    (hg : ∀ p, (g p).context = p.context) :
    ((s.setProc i g).proc j).map (fun p => p.context.code) =
      (s.proc j).map (fun p => p.context.code) := by
  rw [Sys.proc_setProc]
  split
  · cases s.proc j with
    | none => rfl
    | some p => exact congrArg (fun c : Context T => some c.code) (hg p)
  · rfl

theorem Instr.load_kind (i : Instr T) : i.load = .inert ∨ i.load = i.kind := by
  cases i <;> first | exact .inl rfl | exact .inr rfl

/-- A contribution that neither inert pieces nor those of kind `κ` make. -/
def Null (κ : Kind) (f : Instr T → List α) : Prop := ∀ x, x.load = .inert ∨ x.load = κ → f x = []

theorem Light.mem {c : List (Instr T)} (h : Light κ c) (hx : x ∈ c) :
    x.load = .inert ∨ x.load = κ := by
  simpa using List.all_eq_true.mp h x hx

theorem Light.null {c : List (Instr T)} (h : Light κ c) {f : Instr T → List α} (hf : Null κ f) :
    c.flatMap f = [] :=
  List.flatMap_eq_nil_iff.mpr (fun x hx => hf x (h.mem hx))

theorem Light.concat {c : List (Instr T)} (h : Light κ c) (hx : x.load = .inert ∨ x.load = κ) :
    Light κ (c ++ [x]) := by
  unfold Light at h ⊢
  rw [List.all_append, h]
  simpa using hx

/-- Light code in front of code that has a property light pieces do not spoil. -/
theorem Light.append {c e : List (Instr T)} (h : Light κ c) {Q : List (Instr T) → Prop}
    (hpush : ∀ x c, x.load = .inert ∨ x.load = κ → Q c → Q (x :: c)) (he : Q e) : Q (c ++ e) := by
  induction c with
  | nil => exact he
  | cons x c ih =>
    exact hpush x (c ++ e) (h.mem List.mem_cons_self) (ih (Bool.and_eq_true_iff.mp h).2)

theorem light_dead (κ : Kind) (b : Bool) : Light (T := T) κ [.setIntena b, .unreachable] := by
  simp [Light, Instr.load]

theorem light_entry (κ : Kind) : Light (T := T) κ Proc.threadEntry := by
  simp [Light, Proc.threadEntry, Instr.load]

theorem Proc.wakeAll_proc (s : Sys T) (chan j : Nat) :
    (wakeAll s chan).proc j = (s.proc j).map (wakeProc chan) := by
  unfold wakeAll Sys.proc
  rw [List.getElem?_map]
  rcases s.procs[j]? with _ | _ | p <;> rfl

namespace Emits

variable {s s' : Sys T} {i : Instr T}

/-- The hart's code gives way to other code; no context changes. -/
theorem of_code (new : List (Instr T)) (hroot : s'.kernelRoot = s.kernelRoot)
    (hmove : ∀ j, Move E i s.current j (s.proc j) (s'.proc j))
    (hmem : i.kind ≠ .space → SameMemory s s')
    (hsync : i.kind ≠ .sync → s'.sem = s.sem ∧ s'.chan = s.chan) (hctx : SameCtx s s')
    (hc : s.hart.code = i :: k) (hc' : s'.hart.code = new ++ k) (hn : Light i.kind new) :
    Emits E i k s s' := by
  refine ⟨hroot, hmove, hmem, hsync, new, [], [], (codes s).tail, ?_, ?_, hn, by simp, by simp⟩
  · rw [← hc]
    exact .refl _
  · rw [hctx.codes, hc']
    exact .refl _

/-- What only the executed piece's kind could contribute stays as it is. -/
theorem flow (h : Emits E i k s s') {f : Instr T → List α} (hf : Null i.kind f) :
    (gather f s').Perm (gather f s) := by
  obtain ⟨new, gone, born, L, h1, h2, hn, hg, hb⟩ := h.turns
  have hgone : gone.flatMap (fun c => c.flatMap f) = [] := by
    refine List.flatMap_eq_nil_iff.mpr (fun c hc => ?_)
    obtain ⟨b, rfl⟩ := hg c hc
    exact (light_dead i.kind b).null hf
  have hborn : born.flatMap (fun c => c.flatMap f) = [] := by
    refine List.flatMap_eq_nil_iff.mpr (fun c hc => ?_)
    rw [hb c hc]
    exact (light_entry i.kind).null hf
  have e1 := h1.flatMap_right (fun c => c.flatMap f)
  have e2 := h2.flatMap_right (fun c => c.flatMap f)
  simp only [List.flatMap_cons, List.flatMap_append, hgone, hborn, hn.null hf, hf i i.load_kind,
    List.nil_append] at e1 e2
  exact e2.trans e1.symm

/-- A property of code that survives running and light code holds on. -/
theorem all (h : Emits E i k s s') {Q : List (Instr T) → Prop} (hnil : Q [])
    (hpop : Q (i :: k) → Q k)
    (hpush : ∀ x c, x.load = .inert ∨ x.load = i.kind → Q c → Q (x :: c))
    (ha : ∀ c ∈ codes s, Q c) : ∀ c ∈ codes s', Q c := by
  obtain ⟨new, gone, born, L, h1, h2, hn, hg, hb⟩ := h.turns
  intro c hc
  rcases List.mem_cons.mp (h2.mem_iff.mp hc) with rfl | hc
  · exact hn.append hpush (hpop (ha _ (h1.mem_iff.mpr List.mem_cons_self)))
  · rcases List.mem_append.mp hc with hc | hc
    · have hl := (light_entry i.kind).append hpush hnil
      rwa [List.append_nil, ← hb c hc] at hl
    · exact ha c (h1.mem_iff.mpr (List.mem_cons_of_mem _ (List.mem_append_right _ hc)))

/-- So does one that some code has, if the executed piece is not what it is
about. -/
theorem any (h : Emits E i k s s') {R : List (Instr T) → Prop} (hpop : R (i :: k) → R k)
    (hpush : ∀ x c, x.load = .inert ∨ x.load = i.kind → R c → R (x :: c))
    (hdead : ∀ b, ¬R [.setIntena b, .unreachable]) (ha : ∃ c ∈ codes s, R c) : ∃ c ∈ codes s', R c := by
  obtain ⟨new, gone, born, L, h1, h2, hn, hg, hb⟩ := h.turns
  obtain ⟨c, hc, hr⟩ := ha
  rcases List.mem_cons.mp (h1.mem_iff.mp hc) with rfl | hc
  · exact ⟨new ++ k, h2.mem_iff.mpr List.mem_cons_self, hn.append hpush (hpop hr)⟩
  · rcases List.mem_append.mp hc with hc | hc
    · obtain ⟨b, rfl⟩ := hg c hc
      exact absurd hr (hdead b)
    · exact ⟨c, h2.mem_iff.mpr (List.mem_cons_of_mem _ (List.mem_append_right _ hc)), hr⟩

/-- Other code, nothing else. -/
theorem goto (new : List (Instr T)) (hc : s.hart.code = i :: k) (hn : Light i.kind new) :
    Emits E i k s (s.goto (new ++ k)) :=
  of_code new rfl (fun _ => .refl _) (fun _ => ⟨rfl, rfl, rfl, rfl, rfl, rfl, fun _ => rfl⟩) (fun _ => ⟨rfl, rfl⟩)
    ⟨rfl, fun _ => rfl⟩ hc rfl hn

theorem hart (h : Hart T) (hc : s.hart.code = i :: k) :
    Emits E i k s (Sys.goto { s with hart := h } k) :=
  of_code [] rfl (fun _ => .refl _) (fun _ => ⟨rfl, rfl, rfl, rfl, rfl, rfl, fun _ => rfl⟩) (fun _ => ⟨rfl, rfl⟩)
    ⟨rfl, fun _ => rfl⟩ hc rfl rfl

/-- Work on memory. -/
theorem served (hκ : i.kind = .space) (hs : Serves s s₁) (new : List (Instr T))
    (hc : s.hart.code = i :: k) (hn : Light .space new) : Emits E i k s (s₁.goto (new ++ k)) := by
  have hctx := sameCtx_of_place (samePlace_of_serves hs)
  exact of_code new hs.root (Move.of_serves hs) (fun hn => absurd hκ hn) (fun _ => ⟨hs.sem, hs.chan⟩)
    ⟨hctx.sched, hctx.procs⟩ hc rfl (by rw [hκ]; exact hn)

/-- A new state for the calling process. -/
theorem mark (ht : AtThread s l p) (hr : p.state = .running) (hg : Gives E i st)
    (hs : Proc.setState s st = .ok s₁) (new : List (Instr T)) (hc : s.hart.code = i :: k)
    (hn : Light i.kind new) : Emits E i k s (s₁.goto (new ++ k)) := by
  obtain ⟨j, p', hcur, hp, rfl⟩ := Proc.setState_eq hs
  obtain rfl := Option.some.inj (hcur.symm.trans ht.current)
  obtain rfl := Option.some.inj (hp.symm.trans ht.here)
  exact of_code new rfl (Move.setProc s j _ (fun q hq => .give hg hcur (by
      rw [Option.some.inj (hq.symm.trans hp)]; exact hr)))
    (fun _ => ⟨rfl, rfl, rfl, rfl, rfl, rfl, fun j' => data_setProc _ _ _ _ (fun _ => rfl)⟩)
    (fun _ => ⟨rfl, rfl⟩) ⟨rfl, fun j' => ctx_setProc _ _ _ _ (fun _ => rfl)⟩ hc rfl hn

theorem lands (hκ : i.kind = .space) (hl : Lands s s') (hc : s.hart.code = [i]) :
    Emits E i [] s s' := by
  obtain ⟨s₁, c, hs, rfl, hk, _⟩ := hl
  have h := served (E := E) hκ hs c hc hk
  rwa [List.append_nil] at h

/-- The last piece of the hart's code gives way to other code. -/
theorem last (h : Hart T) (hc : s.hart.code = [i]) (hn : Light i.kind h.code) :
    Emits E i [] s { s with hart := h } :=
  of_code h.code rfl (fun _ => .refl _) (fun _ => ⟨rfl, rfl, rfl, rfl, rfl, rfl, fun _ => rfl⟩) (fun _ => ⟨rfl, rfl⟩)
    ⟨rfl, fun _ => rfl⟩ hc (List.append_nil _).symm hn

theorem wakeAll (hc : s.hart.code = .wakeAll chan :: k) :
    Emits E (.wakeAll chan) k s ((Proc.wakeAll s chan).goto k) := by
  have hproc := Proc.wakeAll_proc s chan
  have hkeep : ∀ p : Process T, (Proc.wakeProc chan p).toProcData = p.toProcData ∧
      (Proc.wakeProc chan p).context = p.context := by
    intro p
    unfold Proc.wakeProc
    split <;> exact ⟨rfl, rfl⟩
  refine of_code [] rfl (fun j => ?_) (fun _ => ⟨rfl, rfl, rfl, rfl, rfl, rfl, fun j => ?_⟩)
    (fun _ => ⟨rfl, rfl⟩) ⟨rfl, fun j => ?_⟩ hc rfl rfl
  · show Move _ _ _ _ _ ((Proc.wakeAll s chan).proc j)
    rw [hproc]
    cases s.proc j with
    | none => exact .refl _
    | some p =>
      show Move _ _ _ _ _ (some (Proc.wakeProc chan p))
      unfold Proc.wakeProc
      split
      · rename_i hs
        exact .wake rfl hs
      · exact .refl _
  · show ((Proc.wakeAll s chan).proc j).map _ = _
    rw [hproc, Option.map_map]
    exact congrArg (fun g => (s.proc j).map g) (funext fun p => (hkeep p).1)
  · show ((Proc.wakeAll s chan).proc j).map _ = _
    rw [hproc, Option.map_map]
    exact congrArg (fun g => (s.proc j).map g) (funext fun p => by simp [(hkeep p).2])

/-- A context switch moves code. -/
theorem sched (hc : s.hart.code = .sched :: k) (ht : AtThread s j p)
    (run : Proc.sched s k = .ok s') : Emits E .sched k s s' := by
  obtain ⟨_, j', p', hcur, hp, _, rfl⟩ := Proc.sched_eq run
  obtain rfl := Option.some.inj (hcur.symm.trans ht.current)
  obtain rfl := Option.some.inj (hp.symm.trans ht.here)
  obtain ⟨L, h1, h2, _⟩ := procs_split hp
  have h1 := h1.map (fun p => p.context.code)
  have h2 := (h2 (fun p => { p with context := Proc.saved s k })).map (fun p => p.context.code)
  rw [List.map_cons, ht.empty] at h1
  refine ⟨rfl, Move.setProc s _ _ (fun _ _ => .keep rfl),
    fun _ => ⟨rfl, rfl, rfl, rfl, rfl, rfl, fun _ => data_setProc _ _ _ _ (fun _ => rfl)⟩,
    fun _ => ⟨rfl, rfl⟩, [.setIntena s.hart.intena], [], [],
    s.schedulerCtx.code :: [] :: L.map (fun p => p.context.code), ?_, ?_, rfl, by simp, by simp⟩
  · unfold codes
    rw [hc]
    exact (h1.cons _).cons _
  · refine ((h2.cons _).cons _).trans ?_
    exact ((List.Perm.swap _ _ _).cons _).trans (.swap _ _ _)

theorem swtch (hc : s.hart.code = .swtchTo j :: k) (hb : s.schedulerCtx.code = [])
    (run : Proc.swtchTo s j k = .ok s') : Emits E (.swtchTo j) k s s' := by
  obtain ⟨p, hp, rfl⟩ := Proc.swtchTo_eq run
  obtain ⟨L, h1, h2, _⟩ := procs_split hp
  have h1 := h1.map (fun p => p.context.code)
  have h2 := (h2 (fun p => { p with context := ⟨[], p.context.stack⟩ })).map
    (fun p => p.context.code)
  refine ⟨rfl, Move.setProc s _ _ (fun _ _ => .keep rfl),
    fun _ => ⟨rfl, rfl, rfl, rfl, rfl, rfl, fun _ => data_setProc _ _ _ _ (fun _ => rfl)⟩,
    fun _ => ⟨rfl, rfl⟩, [], [], [],
    [] :: p.context.code :: L.map (fun p => p.context.code), ?_, ?_, rfl, by simp, by simp⟩
  · unfold codes
    rw [hc, hb]
    exact (h1.cons _).cons _
  · refine ((h2.cons _).cons _).trans ?_
    exact (List.Perm.swap _ _ _).trans ((List.Perm.swap _ _ _).cons _)

/-- A new process brings only the code every thread starts with. -/
theorem publish (hs : Proc.publish s d = .ok s₁) (hc : s.hart.code = .publish d :: k) :
    Emits E (.publish d) k s (s₁.goto k) := by
  obtain ⟨s₂, slot, hg, hnone, he, hproc, hperm⟩ := Proc.publish_eq hs
  have hs₂ : Serves s s₂ := by
    rcases hg with rfl | hg
    · exact .refl _
    · exact .growProcs hg
  have hsched : s₁.schedulerCtx = s.schedulerCtx := by rw [he]; exact hs₂.sched
  refine ⟨by rw [he]; exact hs₂.root, fun j => ?_, fun hn => absurd rfl hn,
    fun _ => by rw [he]; exact ⟨hs₂.sem, hs₂.chan⟩, [], [], [Proc.threadEntry], (codes s).tail, ?_, ?_,
    rfl, by simp, by simp⟩
  · show Move _ _ _ _ _ (s₁.proc j)
    rw [hproc j]
    split
    · rename_i hj
      rw [hj, hnone]
      exact .born rfl
    · exact .refl _
  · rw [← hc]
    exact .refl _
  · have hp := hperm.map (fun p => p.context.code)
    show (k :: s₁.schedulerCtx.code :: _).Perm _
    rw [hsched]
    exact ((hp.cons _).trans (.swap _ _ _)).cons _

/-- A reaped process had no code left but the call it never returns from. -/
theorem reap (hb : ∀ l q, s.proc l = some q → Ctx s.kernelRoot q) (hi : s.hart.code = [.reap j])
    (run : Proc.reapLoop E s j = .ok s') : Emits E (.reap j) [] s s' := by
  unfold Proc.reapLoop at run
  split at run
  · rename_i hlt
    simp only [bind_ok, Except.ok.injEq] at run
    obtain ⟨s₁, hr, rfl⟩ := run
    rcases Proc.reap_eq hr with ⟨rfl, _⟩ | ⟨p, _, s₂, hp, hz, _, _, hm, rfl⟩
    · exact goto [.reap (j + 1)] hi rfl
    · rw [hm]
      obtain ⟨b, hb⟩ := (hb j p hp).1 hz
      obtain ⟨L, h1, _, h3⟩ := procs_split hp
      have h1 := h1.map (fun p => p.context.code)
      refine ⟨rfl, fun l => ?_, fun hn => absurd rfl hn, fun _ => ⟨rfl, rfl⟩, [.reap (j + 1)],
        [p.context.code], [],
        s.schedulerCtx.code :: L.map (fun p => p.context.code), ?_, ?_, rfl, ?_, by simp⟩
      · show Move _ _ _ _ _ (((s.procs.set j none)[l]?).join)
        rw [Proc.proc_set _ _ _ _ hlt]
        split
        · rename_i hl
          subst hl
          rw [hp]
          exact .reap rfl hz
        · exact .refl _
      · unfold codes
        rw [hi]
        exact ((h1.cons _).trans (.swap _ _ _)).cons _
      · show ([.reap (j + 1)] :: s.schedulerCtx.code ::
          (s.procs.set j none).reduceOption.map (fun p => p.context.code)).Perm _
        rw [h3]
        exact .refl _
      · intro c hc
        obtain rfl := List.mem_singleton.mp hc
        exact ⟨b, hb⟩
  · obtain rfl := Except.ok.inj run
    exact goto [.pick] hi rfl

end Emits
end Osmium
