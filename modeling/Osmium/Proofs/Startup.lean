import Osmium.Proofs.SyncRun

namespace Osmium
open Lib Vm Control

variable {T : Type} {E : Env} {s s' : Sys T}

/-- What the body a process was created with will read is there. -/
structure Fit (d : ProcData) : Prop where
  user : d.entry = .userThreadBody → d.userEntry ≠ 0
  fork : d.entry = .forkretBody → d.forkFrame ≠ none

namespace Instr

/-- The pieces of a thread's first way to its body, the offer of a new process,
and a trap that waits to be handled. -/
def marked : Instr T → Bool
  | .fetchEntry | .fetchUser | .fetchFork | .userEntry .. | .userret .. | .publish _
  | .kerneltrap .. => true
  | _ => false

/-- The pieces that end with a new process in hand. -/
def bears : Instr T → Bool
  | .spawn | .spawnUser .. | .fork _ => true
  | _ => false

/-- What a piece of a thread's code takes for granted about its process. -/
def Suits (p : ProcData) : Instr T → Prop
  | .fetchEntry => Fit p
  | .fetchUser => p.userEntry ≠ 0
  | .fetchFork => p.forkFrame ≠ none
  | .userEntry entry _ _ => entry ≠ 0
  | .userret f top => top = p.kstackTop ∧ ∃ b, p.forkFrame = some (b, f)
  | _ => True

theorem suits_of_unmarked {x : Instr T} (h : x.marked = false) (p : ProcData) : x.Suits p := by
  cases x with
  | fetchEntry | fetchUser | fetchFork | userEntry | userret => cases h
  | _ => trivial

end Instr

/-- How marked code comes about. -/
inductive Bred (s : Sys T) : Instr T → Instr T → Prop where
  | user (caller : s.currentProc = some (j, p)) (entry : p.entry = .userThreadBody) :
      Bred s .fetchEntry .fetchUser
  | fork (caller : s.currentProc = some (j, p)) (entry : p.entry = .forkretBody) :
      Bred s .fetchEntry .fetchFork
  | entry (caller : s.currentProc = some (j, p)) :
      Bred s .fetchUser (.userEntry p.userEntry p.userSp p.kstackTop)
  | resume (caller : s.currentProc = some (j, p)) (frame : p.forkFrame = some (b, f)) :
      Bred s .fetchFork (.userret f p.kstackTop)
  | child (d : ProcData) (bears : i.bears = true) : Bred s i (.publish d)

/-- Code without marks. -/
def Unmarked (c : List (Instr T)) : Prop := c.all (fun x => !x.marked) = true

theorem Unmarked.mem {c : List (Instr T)} (h : Unmarked c) (hx : x ∈ c) : x.marked = false := by
  simpa using List.all_eq_true.mp h x hx

theorem op_unmarked (E : Env) (op : Op T) : Unmarked (op.code E) := by
  cases op <;> rfl

theorem irq_unmarked (E : Env) (irq : Irq) : Unmarked (T := T) (irq.code E) := by
  cases irq with
  | timer => rfl
  | uart bytes =>
    induction bytes with
    | nil => rfl
    | cons byte bytes ih =>
      unfold Unmarked at ih ⊢
      simp only [Irq.code, List.flatMap_cons, List.all_append, Bool.and_eq_true]
      exact ⟨rfl, ih⟩

theorem execRest_unmarked (table : Nat) (p : Process T) : Unmarked (Proc.execRest table p) := by
  unfold Proc.execRest
  cases p.userTable <;> rfl

theorem Calls.unmarked {c : List (Instr T)} (h : Calls f c) : Unmarked c := by
  cases h <;> rfl

/-- Marked code is older than the piece that has run, or one of the few pieces
that write it. -/
theorem Follows.origin (h : Follows E s i k c) (hx : x ∈ c) (hm : x.marked = true) :
    x ∈ k ∨ Bred s i x := by
  have front : ∀ new : List (Instr T), x ∈ new ++ k → Unmarked new → x ∈ k ∨ Bred s i x := by
    intro new hin hn
    rcases List.mem_append.mp hin with hin | hin
    · rw [hn.mem hin] at hm
      cases hm
    · exact .inl hin
  have fresh : ∀ {new : List (Instr T)}, x ∈ new → Unmarked new → x ∈ k ∨ Bred s i x := by
    intro new hin hn
    exact front new (List.mem_append_left _ hin) hn
  have offer : ∀ (d : ProcData) (tail : List (Instr T)), i.bears = true →
      x ∈ Proc.publishing d ++ tail → Unmarked tail → x ∈ k ∨ Bred s i x := by
    intro d tail hb hin ht
    rcases List.mem_append.mp hin with hin | hin
    · simp only [Proc.publishing, List.mem_cons, List.not_mem_nil, or_false] at hin
      rcases hin with rfl | rfl | rfl
      · cases hm
      · exact .inr (.child d hb)
      · cases hm
    · exact fresh hin ht
  cases h with
  | plain => exact .inl hx
  | tickDone | tickOver | noYield => exact .inl hx
  | idle idles =>
    rcases List.mem_cons.mp hx with rfl | hx
    · cases x with
      | body | boot | umode => cases hm
      | _ => cases idles
    · exact .inl hx
  | fetchEntry caller =>
    rename_i p
    cases he : p.entry with
    | kernel =>
      rw [he] at hx
      exact fresh hx rfl
    | userThreadBody =>
      rw [he] at hx
      simp only [Proc.entryCode, List.mem_cons, List.not_mem_nil, or_false] at hx
      rcases hx with rfl | rfl | rfl
      · cases hm
      · cases hm
      · exact .inr (.user caller he)
    | forkretBody =>
      rw [he] at hx
      simp only [Proc.entryCode, List.mem_cons, List.not_mem_nil, or_false] at hx
      rcases hx with rfl | rfl | rfl
      · cases hm
      · cases hm
      · exact .inr (.fork caller he)
  | fetchUser caller =>
    rcases List.mem_cons.mp hx with rfl | hx
    · cases hm
    · rcases List.mem_cons.mp hx with rfl | hx
      · exact .inr (.entry caller)
      · exact .inl hx
  | fetchFork caller frame =>
    rcases List.mem_cons.mp hx with rfl | hx
    · cases hm
    · rcases List.mem_cons.mp hx with rfl | hx
      · cases hm
      · rcases List.mem_cons.mp hx with rfl | hx
        · exact .inr (.resume caller frame)
        · exact .inl hx
  | trapCall calls => exact fresh hx calls.unmarked
  | execCommit => exact fresh hx (execRest_unmarked _ _)
  | spawnUser d | spawn d =>
    rcases List.mem_append.mp hx with hx | hx
    · exact offer d [] rfl (List.mem_append_left _ hx) rfl
    · exact .inl hx
  | fork d => exact offer d _ rfl hx rfl
  | drop | exit | read | schedLoop | reapNext | reapDone | pickNone | pick | trapBreak | trapServed
  | trapKill | forkNone => exact fresh hx rfl
  | sched => exact front [_] hx rfl
  | yieldBody => exact front [_] hx rfl
  | preempt => exact front (.popOff :: Proc.yieldNow) hx rfl
  | noPreempt => exact front [_] hx rfl
  | join pid => exact front [_, _] hx rfl
  | joinSleep pid => exact front (Proc.sleep .exit ++ [.popOff, .join pid]) hx (by rfl)
  | joined => exact front [_] hx rfl
  | sleepTicks => exact front [_] hx rfl
  | tickAgain => exact front [_, _, _, _] hx rfl
  | tickSleep => exact front (Proc.sleep .tick) hx rfl
  | getchar r => exact front (Console.getcharCode r) hx rfl
  | getcharSleep r =>
    exact front (.release .input :: Proc.sleep .input ++ [.popOff, .getcharLoop r]) hx (by rfl)
  | getcharGot r => exact front [_, _, _] hx rfl
  | wait a => exact front (Sync.waitCode a) hx rfl
  | pass => exact front [_, _] hx rfl
  | block => exact front [_, _, _] hx rfl
  | userEntry => exact front [_] hx rfl
  | loadImage => exact front [_] hx rfl
  | loadText => exact front [_] hx rfl
  | loadedText => exact front [_] hx rfl
  | loadSpawn => exact front [_] hx rfl
  | loadExec => exact front [_] hx rfl

theorem spawnWith_born {entry : Entry} {cfg : ProcData → ProcData}
    (run : Proc.spawnWith E s entry cfg = .ok (d, s')) :
    ∃ d₀, d = cfg d₀ ∧ d₀.entry = entry := by
  simp only [Proc.spawnWith, bind_ok, Except.ok.injEq, Prod.mk.injEq] at run
  obtain ⟨_, _, _, _, rfl, _⟩ := run
  exact ⟨_, rfl, rfl⟩

/-- A process is offered only once it can start. -/
theorem bears_fit (hb : i.bears = true) (run : exec E junk s i k = .ok s')
    (hin : .publish d ∈ s'.hart.code) : .publish d ∈ k ∨ Fit d := by
  have offered : ∀ {d' : ProcData} {tail : List (Instr T)}, .publish d ∈ Proc.publishing d' ++ tail →
      d = d' ∨ .publish d ∈ tail := by
    intro d' tail hin
    simpa [Proc.publishing] using hin
  cases i with
  | spawn =>
    simp only [exec, Proc.spawn, bind_ok, Except.ok.injEq] at run
    obtain ⟨⟨d', s₁⟩, hs, rfl⟩ := run
    obtain ⟨d₀, rfl, he⟩ := spawnWith_born hs
    rcases offered hin with rfl | hin
    · have he : d.entry = .kernel := he
      refine .inr ⟨fun h => ?_, fun h => ?_⟩
      · rw [he] at h
        cases h
      · rw [he] at h
        cases h
    · exact .inl hin
  | spawnUser prog table =>
    simp only [exec, Proc.spawnUser, bind_ok, Except.ok.injEq] at run
    obtain ⟨⟨d', s₁⟩, hs, rfl⟩ := run
    obtain ⟨d₀, rfl, he⟩ := spawnWith_born hs
    rcases offered hin with rfl | hin
    · refine .inr ⟨fun _ => (by decide : userText ≠ 0), fun h => ?_⟩
      have h : d₀.entry = .forkretBody := h
      rw [he] at h
      cases h
    · exact .inl hin
  | fork f =>
    simp only [exec, Proc.fork] at run
    split at run
    · obtain rfl := Except.ok.inj run
      cases List.mem_singleton.mp hin
    · simp only [bind_ok, Except.ok.injEq] at run
      obtain ⟨_, _, _, _, ⟨d', s₂⟩, hs, rfl⟩ := run
      obtain ⟨d₀, rfl, he⟩ := spawnWith_born hs
      rcases offered hin with rfl | hin
      · refine .inr ⟨fun h => ?_, fun _ => Option.some_ne_none _⟩
        have h : d₀.entry = .userThreadBody := h
        rw [he] at h
        cases h
      · cases List.mem_singleton.mp hin
  | _ => cases hb

/-- Code in which offered processes can start, and in which nothing stands before
a trap that waits to be handled. -/
structure Proper (c : List (Instr T)) : Prop where
  offers : ∀ d, .publish d ∈ c → Fit d
  first : ∀ x ∈ c.tail, x.traps = false

theorem Unmarked.traps {c : List (Instr T)} (h : Unmarked c) (hx : x ∈ c) : x.traps = false := by
  have hm := h.mem hx
  cases x with
  | kerneltrap => cases hm
  | _ => rfl

theorem Unmarked.proper {c : List (Instr T)} (h : Unmarked c) : Proper c :=
  ⟨fun _ hin => (by cases h.mem hin), fun _ hx => h.traps (List.mem_of_mem_tail hx)⟩

theorem Proper.tail {k : List (Instr T)} (h : Proper (i :: k)) : Proper k :=
  ⟨fun d hin => h.offers d (List.mem_cons_of_mem _ hin), fun x hx => h.first x (List.mem_of_mem_tail hx)⟩

theorem Proper.append {c c' : List (Instr T)} (h : Unmarked c) (h' : Proper c')
    (hfirst : ∀ x ∈ c', x.traps = false) : Proper (c ++ c') where
  offers d hin := by
    rcases List.mem_append.mp hin with hin | hin
    · cases h.mem hin
    · exact h'.offers d hin
  first x hx := by
    rcases List.mem_append.mp (List.mem_of_mem_tail hx) with hx | hx
    · exact h.traps hx
    · exact hfirst x hx

theorem Instr.marked_of_traps {x : Instr T} (h : x.traps = true) : x.marked = true := by
  cases x with
  | kerneltrap => rfl
  | _ => cases h

/-- A piece of kernel code never leaves a trap to be handled. -/
theorem Follows.untrapped (h : Follows E s i k c) (hk : Proper (i :: k)) (hx : x ∈ c) : x.traps = false := by
  cases ht : x.traps with
  | false => rfl
  | true =>
    rcases h.origin hx (Instr.marked_of_traps ht) with hin | hb
    · rw [← ht]
      exact hk.first x hin
    · cases hb <;> cases ht

theorem proper_exec (ha : Kept.All Proper s) (hcode : s.hart.code = i :: k)
    (run : exec E junk s i k = .ok s') : Kept.All Proper s' := by
  have hp : Proper (i :: k) := hcode ▸ ha.hart
  refine ha.exec hcode run (Unmarked.proper rfl) (?_) (fun _ _ => hp.tail) (fun _ => ?_) fun hsw => ?_
  · exact ⟨fun d hin => (by simp [Proc.threadEntry] at hin), fun x hx => (by
      simp only [Proc.threadEntry, List.tail_cons, List.mem_cons, List.not_mem_nil, or_false] at hx
      rcases hx with rfl | rfl | rfl <;> rfl)⟩
  · exact .append (c := [_]) rfl hp.tail hp.first
  · have hf := (exec_turns hcode run).code hsw
    refine ⟨fun d hin => ?_, fun x hx => hf.untrapped hp (List.mem_of_mem_tail hx)⟩
    rcases hf.origin hin rfl with hin | hb
    · exact hp.offers d (List.mem_cons_of_mem _ hin)
    · cases hb with
      | child d hb =>
        rcases bears_fit hb run hin with hin | hfit
        · exact hp.offers d (List.mem_cons_of_mem _ hin)
        · exact hfit

/-- Code at whose front interrupts can be on holds no trap. -/
theorem Control.Holds.untrapped (h : Holds S lvl top s) (hp : Proper s.hart.code) (on : s.hart.sie = true)
    (hx : x ∈ s.hart.code) : x.traps = false := by
  cases hcode : s.hart.code with
  | nil =>
    rw [hcode] at hx
    cases hx
  | cons i k =>
    rw [hcode] at hp hx
    rcases List.mem_cons.mp hx with rfl | hx
    · cases x with
      | kerneltrap =>
        obtain ⟨_, rfl, _⟩ := h.leads hcode
        have hoff := h.reads.2
        rw [on] at hoff
        cases hoff
      | _ => rfl
    · exact hp.first x hx

theorem proper_step (h : Holds S lvl top s) (ha : Kept.All Proper s) (move : Step E s s') :
    Kept.All Proper s' := by
  obtain ⟨hhart, hsched, hprocs⟩ := ha
  cases move with
  | exec junk code run => exact proper_exec ⟨hhart, hsched, hprocs⟩ code run
  | call op code =>
    obtain ⟨_, _, rfl⟩ := h.leads code
    rw [code] at hhart
    refine ⟨.append (op_unmarked E op) hhart ?_, hsched, hprocs⟩
    intro x hx
    rw [List.mem_singleton.mp hx]
    rfl
  | bootCall op early code =>
    obtain ⟨_, _, rfl⟩ := h.leads code
    rw [code] at hhart
    refine ⟨.append (op_unmarked E op) hhart ?_, hsched, hprocs⟩
    intro x hx
    rw [List.mem_singleton.mp hx]
    rfl
  | leave code => exact ⟨Unmarked.proper rfl, hsched, hprocs⟩
  | bootDone code => exact ⟨Unmarked.proper rfl, hsched, hprocs⟩
  | interrupt irq on kernel =>
    refine ⟨.append (irq_unmarked E irq) (.append (c := [.sretKernel]) rfl hhart ?_) ?_, hsched, hprocs⟩
    · intro x hx
      exact h.untrapped hhart on hx
    · intro x hx
      rcases List.mem_cons.mp hx with rfl | hx
      · rfl
      · exact h.untrapped hhart on hx
  | userInterrupt irq code =>
    refine ⟨.append (irq_unmarked E irq) (Unmarked.proper rfl) ?_, hsched, hprocs⟩
    intro x hx
    rw [List.mem_singleton.mp hx]
    rfl
  | userTrap cause stval word code fetched =>
    refine ⟨⟨fun d hin => ?_, fun x hx => ?_⟩, hsched, hprocs⟩
    · cases List.mem_singleton.mp hin
    · cases hx
  | userAlu regs pc words code => exact ⟨hhart, hsched, hprocs⟩
  | userStore va pa b code mapped => exact ⟨hhart, hsched, hprocs⟩

theorem reachable_proper (h : Reachable E reserved s) : Kept.All Proper s := by
  refine h.invariant (fun m regs s run => ?_) fun _ _ _ _ _ hh move ha => proper_step hh ha move
  simp only [kmain, bind_ok, Except.ok.injEq] at run
  obtain ⟨_, _, _, _, _, _, _, _, _, _, _, _, _, _, rfl⟩ := run
  refine ⟨Unmarked.proper rfl, Unmarked.proper rfl, fun j p hp => ?_⟩
  cases hp

/-- What a thread's code takes for granted about its process holds. -/
def Equipped (p : Process T) (c : List (Instr T)) : Prop := ∀ x ∈ c, x.Suits p.toProcData

theorem Unmarked.equipped {c : List (Instr T)} (h : Unmarked c) (p : Process T) : Equipped p c :=
  fun _ hx => Instr.suits_of_unmarked (h.mem hx) _

theorem Equipped.append {p : Process T} (h : Unmarked c) (h' : Equipped p c') : Equipped p (c ++ c') := by
  intro x hx
  rcases List.mem_append.mp hx with hx | hx
  · exact h.equipped p x hx
  · exact h' x hx

/-- Nothing that pieces of code rely on is lost when the data of a process changes
in ways of its own calls. -/
theorem Equipped.static {p q : Process T} (h : Equipped p c) (hs : static q = static p) : Equipped q c := by
  have hentry : q.entry = p.entry := (congrArg ProcData.entry hs :)
  have huser : q.userEntry = p.userEntry := (congrArg ProcData.userEntry hs :)
  have hfork : q.forkFrame = p.forkFrame := (congrArg ProcData.forkFrame hs :)
  have htop : q.kstackTop = p.kstackTop := (congrArg ProcData.kstackTop hs :)
  intro x hx
  have hsuits := h x hx
  cases x with
  | fetchEntry =>
    refine ⟨fun he => ?_, fun he => ?_⟩
    · rw [huser]
      exact hsuits.user (hentry ▸ he)
    · rw [hfork]
      exact hsuits.fork (hentry ▸ he)
  | fetchUser | fetchFork | userEntry | userret =>
    simp only [Instr.Suits, huser, hfork, htop] at hsuits ⊢
    exact hsuits
  | _ => trivial

/-- A thread's own piece leaves the thread with code that suits it. -/
theorem Equipped.follows {p : Process T} (h : Equipped p (i :: k)) (hcur : s.currentProc = some (j, p))
    (hf : Follows E s i k c) : Equipped p c := by
  intro x hx
  cases hm : x.marked with
  | false => exact Instr.suits_of_unmarked hm _
  | true =>
    have hi := h i List.mem_cons_self
    have mine : ∀ {j' p'}, s.currentProc = some (j', p') → p' = p := by
      intro j' p' hc
      rw [hcur] at hc
      exact (congrArg Prod.snd (Option.some.inj hc)).symm
    rcases hf.origin hx hm with hin | hb
    · exact h x (List.mem_cons_of_mem _ hin)
    · cases hb with
      | user caller entry =>
        obtain rfl := mine caller
        exact hi.user entry
      | fork caller entry =>
        obtain rfl := mine caller
        exact hi.fork entry
      | entry caller =>
        obtain rfl := mine caller
        exact hi
      | resume caller frame =>
        obtain rfl := mine caller
        exact ⟨rfl, _, frame⟩
      | child => trivial

theorem equipped_exec (h : Holds S lvl top s) (hp : Proper s.hart.code)
    (he : ∀ j p, s.proc j = some p → Equipped p (codeOf s p)) (hcode : s.hart.code = i :: k)
    (run : exec E junk s i k = .ok s') (hq : s'.proc j = some q') : Equipped q' (codeOf s' q') := by
  have hheir := (exec_turns hcode run).heirs j
  rw [hq] at hheir
  rcases exec_threads h hcode run hq with ⟨q, hold, hc⟩ | ⟨d, rfl, _, rfl⟩
  · rw [hold] at hheir
    cases hheir with
    | same same =>
      refine Equipped.static ?_ (Option.some.inj same)
      rcases hc with hc | ⟨hcur, hmine, hf⟩
      · rw [hc]
        exact he j q hold
      · have hold' := he j q hold
        rw [hmine] at hold'
        exact hold'.follows (Sys.currentProc_some hcur hold) hf
    | exec piece caller =>
      -- the old image's frame is gone, and no piece of the new one's asks for it
      obtain rfl := piece
      have hcode' := h.code
      rw [hcode] at hcode'
      cases hcode'
      rcases hc with hc | ⟨_, _, hf⟩
      · obtain ⟨p, hp', hempty⟩ := h.place.caller caller
        obtain rfl := Option.some.inj (hold.symm.trans hp')
        rw [hc, codeOf_hart hempty, hcode]
        exact Unmarked.equipped (c := [.execCommit _ _]) rfl _
      · generalize codeOf s' (Proc.takeSpace _ _ q) = c at hf
        cases hf with
        | plain acts => cases acts
        | idle idles => cases idles
        | drop drops => cases drops
        | execCommit => exact (execRest_unmarked _ _).equipped _
  · have hfit : Fit d := hp.offers d (by rw [hcode]; exact List.mem_cons_self)
    rw [codeOf_ctx (List.cons_ne_nil _ _)]
    intro x hx
    simp only [Proc.fresh, Proc.threadEntry, List.mem_cons, List.not_mem_nil, or_false] at hx
    rcases hx with rfl | rfl | rfl | rfl
    · trivial
    · trivial
    · trivial
    · exact hfit

/-- A move that changes only the hart's code. -/
theorem equipped_front (he : ∀ j p, s.proc j = some p → Equipped p (codeOf s p)) (hprocs : s'.procs = s.procs)
    (hfront : ∀ p, Equipped p s.hart.code → Equipped p s'.hart.code) (hq : s'.proc j = some q) :
    Equipped q (codeOf s' q) := by
  have hq : s.proc j = some q := by
    unfold Sys.proc at hq ⊢
    rwa [← hprocs]
  have hold := he j q hq
  by_cases hn : q.context.code = []
  · rw [codeOf_hart hn] at hold ⊢
    exact hfront q hold
  · rw [codeOf_ctx hn] at hold ⊢
    exact hold

theorem equipped_step (h : Holds S lvl top s) (hp : Proper s.hart.code)
    (he : ∀ j p, s.proc j = some p → Equipped p (codeOf s p)) (move : Step E s s')
    (hq : s'.proc j = some q) : Equipped q (codeOf s' q) := by
  cases move with
  | exec junk code run => exact equipped_exec h hp he code run hq
  | call op code =>
    refine equipped_front he rfl (fun p hc => ?_) hq
    rw [code] at hc
    exact .append (op_unmarked E op) hc
  | bootCall op early code =>
    refine equipped_front he rfl (fun p hc => ?_) hq
    rw [code] at hc
    exact .append (op_unmarked E op) hc
  | leave code => exact equipped_front he rfl (fun p _ => Unmarked.equipped (c := [.exit]) rfl p) hq
  | bootDone code => exact equipped_front he rfl (fun p _ => Unmarked.equipped (c := [.schedLoop]) rfl p) hq
  | interrupt irq on kernel =>
    exact equipped_front he rfl
      (fun p hc => .append (irq_unmarked E irq) (.append (c := [.sretKernel]) rfl hc)) hq
  | userInterrupt irq code =>
    exact equipped_front he rfl
      (fun p _ => .append (irq_unmarked E irq) (Unmarked.equipped (c := [.trapRet _]) rfl p)) hq
  | userTrap cause stval word code fetched =>
    refine equipped_front he rfl (fun p _ x hx => ?_) hq
    rw [List.mem_singleton.mp hx]
    trivial
  | userAlu regs pc words code => exact equipped_front he rfl (fun _ hc => hc) hq
  | userStore va pa b code mapped => exact equipped_front he rfl (fun _ hc => hc) hq

/-- Every thread finds what its code will ask of its process. -/
theorem reachable_equipped (h : Reachable E reserved s) (hp : s.proc j = some p) : Equipped p (codeOf s p) := by
  induction h generalizing j p with
  | boot m regs run =>
    rw [Sys.proc, (Sync.boot_untouched run).procs] at hp
    cases hp
  | step reach move ih =>
    obtain ⟨S, lvl, top, hh⟩ := reach.controlled
    exact equipped_step hh (reachable_proper reach).hart (fun _ _ hq => ih hq) move hp

/-- The piece at the front of the running thread's code suits the thread. -/
theorem front_suits (h : Reachable E reserved s) (hh : Holds .thread lvl top s) (hcode : s.hart.code = i :: k) :
    ∃ j p, s.currentProc = some (j, p) ∧ i.Suits p.toProcData := by
  obtain ⟨j, p, hat, _⟩ := hh.place
  refine ⟨j, p, Sys.currentProc_some hat.current hat.here, ?_⟩
  have he := reachable_equipped h hat.here
  rw [codeOf_hart hat.empty, hcode] at he
  exact he i List.mem_cons_self

end Osmium
