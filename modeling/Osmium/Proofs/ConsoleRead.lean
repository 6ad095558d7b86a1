import Osmium.Proofs.Console
import Osmium.Proofs.Locks
import Osmium.Proofs.UserCopy
import Osmium.Proofs.UserMode

namespace Osmium
open Lib Vm Control Console Syscall

variable {T : Type} {E : Env} {pool : PagePool E.allocStart} {s s' : Sys T}

theorem exec_acquire (E : Env) (junk : Regs) (h : s.locked l = false) (k : List (Instr T)) :
    exec E junk s (.acquire l) k = .ok (Sys.goto
      { s with
        hart := Spinlock.pushOff s.hart
        locked := fun l' => if l' = l then true else s.locked l' } k) := by
  unfold exec Spinlock.acquire
  dsimp only
  rw [h]
  rfl

/-- The hart with interrupts off at the given depth, and off before. -/
def Hart.masked (h : Hart T) (depth : Nat) : Hart T :=
  { h with sie := false, noff := depth, intena := false }

theorem pushOff_masked (h : Hart T) (hoff : h.sie = false) (hdepth : h.noff = 0) :
    Spinlock.pushOff h = h.masked 1 := by
  unfold Spinlock.pushOff Hart.masked
  rw [hoff, hdepth]
  rfl

theorem exec_pushOff (E : Env) (junk : Regs) (hoff : s.hart.sie = false) (hdepth : s.hart.noff = 0)
    (k : List (Instr T)) :
    exec E junk s .pushOff k = .ok (Sys.goto { s with hart := s.hart.masked 1 } k) := by
  unfold exec
  dsimp only
  rw [pushOff_masked _ hoff hdepth]

theorem popOff_masked (h : Hart T) (n : Nat) :
    Spinlock.popOff (h.masked (n + 1)) = .ok (h.masked n) := by
  unfold Spinlock.popOff Hart.masked
  simp

/-- Giving back a lock that was free before. -/
theorem exec_release (E : Env) (junk : Regs) (hl : s.locked l = false) (h : Hart T)
    (n : Nat) (k : List (Instr T)) :
    exec E junk
      { s with
        hart := h.masked (n + 1)
        locked := fun l' => if l' = l then true else s.locked l' }
      (.release l) k = .ok (Sys.goto { s with hart := h.masked n } k) := by
  have hlocked : (fun l' => if l' = l then false else if l' = l then true else s.locked l') =
      s.locked := by
    funext l'
    by_cases he : l' = l
    · rw [if_pos he, he, hl]
    · rw [if_neg he, if_neg he]
  unfold exec Spinlock.release
  dsimp only
  rw [popOff_masked, ok_bind, ok_bind, hlocked]

theorem exec_popOff (E : Env) (junk : Regs) (s : Sys T) (h : Hart T) (n : Nat) (k : List (Instr T)) :
    exec E junk { s with hart := h.masked (n + 1) } .popOff k =
      .ok (Sys.goto { s with hart := h.masked n } k) := by
  unfold exec
  dsimp only
  rw [popOff_masked, ok_bind]

theorem exec_sleepMark (E : Env) (junk : Regs) (hc : s.currentProc = some (i, p)) (cause : Cause)
    (k : List (Instr T)) : exec E junk s (.sleepMark cause) k =
      .ok ((s.setProc i (fun q => { q with state := .sleeping (cause.chan E) })).goto k) := by
  unfold exec Proc.setState
  dsimp only
  rw [hc]
  rfl

theorem exec_sched (E : Env) (junk : Regs) (hn : s.hart.noff = 1) (hc : s.currentProc = some (i, p))
    (hp : p.state ≠ .running) (k : List (Instr T)) : exec E junk s .sched k =
      .ok { s.setProc i (fun q => { q with context := Proc.saved s k }) with
        hart := { s.hart with code := s.schedulerCtx.code, stack := s.schedulerCtx.stack }
        schedulerCtx := ⟨[], s.schedulerCtx.stack⟩ } := by
  unfold exec Proc.sched
  dsimp only
  rw [if_neg (not_not.mpr hn), hc]
  dsimp only
  rw [if_neg hp]
  rfl

namespace Console

/-- A read from U-mode up to its look at the ring. -/
def polled (s : Sys T) (r : Reader) (k : List (Instr T)) : Sys T :=
  Sys.goto
    { s with
      hart := s.hart.masked 2
      locked := fun l => if l = .input then true else s.locked l } (.getcharCheck r :: k)

theorem polls (hcode : s.hart.code = .getcharLoop r :: k) (hoff : s.hart.sie = false)
    (hdepth : s.hart.noff = 0) (hfree : s.locked .input = false) :
    Relation.ReflTransGen (Forced E) s (polled s r k) := by
  have hloop : Forced E s (s.goto (getcharCode r ++ k)) := .of_exec hcode hoff rfl fun _ => rfl
  have hpush : Forced E (s.goto (getcharCode r ++ k))
      (Sys.goto { s with hart := s.hart.masked 1 } (.acquire .input :: .getcharCheck r :: k)) :=
    .of_exec rfl hoff rfl fun junk => exec_pushOff E junk (s := s.goto (getcharCode r ++ k)) hoff hdepth _
  have hlock : Forced E
      (Sys.goto { s with hart := s.hart.masked 1 } (.acquire .input :: .getcharCheck r :: k))
      (polled s r k) :=
    .of_exec rfl rfl rfl fun junk => exec_acquire E junk
      (s := Sys.goto { s with hart := s.hart.masked 1 } (.acquire .input :: .getcharCheck r :: k)) hfree _
  exact .tail (.tail (.single hloop) hpush) hlock

/-- With interrupts off, a read that finds a byte takes it. -/
theorem found (hcode : s.hart.code = .getcharLoop r :: k) (hoff : s.hart.sie = false)
    (hdepth : s.hart.noff = 0) (hfree : s.locked .input = false) (hne : s.input.r ≠ s.input.w) :
    Relation.ReflTransGen (Forced E) s (Sys.goto
      { s with
        input := { s.input with r := s.input.r + 1 }
        hart := s.hart.masked 0 }
      (.gotChar r (s.input.buf (s.input.r % inputCap)) :: k)) := by
  let c := .gotChar r (s.input.buf (s.input.r % inputCap)) :: k
  let s₁ : Sys T := { s with input := { s.input with r := s.input.r + 1 } }
  have hcheck : Forced E (polled s r k)
      (Sys.goto { polled s r k with input := s₁.input } (.release .input :: .popOff :: c)) := by
    refine .of_exec rfl rfl rfl fun _ => ?_
    rcases getcharCheck_eq (polled s r k) r k with ⟨he, _⟩ | ⟨_, he⟩
    · exact absurd he hne
    · exact congrArg Except.ok he
  have hrelease : Forced E
      (Sys.goto { polled s r k with input := s₁.input } (.release .input :: .popOff :: c))
      (Sys.goto { s₁ with hart := s.hart.masked 1 } (.popOff :: c)) :=
    .of_exec rfl rfl rfl fun junk => exec_release E junk (s := s₁) hfree
      { s.hart with code := .release .input :: .popOff :: c } 1 _
  have hpop : Forced E (Sys.goto { s₁ with hart := s.hart.masked 1 } (.popOff :: c))
      (Sys.goto { s₁ with hart := s.hart.masked 0 } c) :=
    .of_exec rfl rfl rfl fun junk => exec_popOff E junk s₁
      { s.hart with code := .popOff :: c } 0 _
  exact .tail (.tail (.tail (polls hcode hoff hdepth hfree) hcheck) hrelease) hpop

/-- A read that finds nothing sleeps, and will look again. -/
theorem starved (hcode : s.hart.code = .getcharLoop r :: k) (hoff : s.hart.sie = false)
    (hdepth : s.hart.noff = 0) (hfree : s.locked .input = false) (he : s.input.r = s.input.w)
    (hc : s.currentProc = some (i, p)) :
    ∃ s', Relation.ReflTransGen (Forced E) s s' ∧ s'.input = s.input ∧
      s'.proc i = some { p with
        state := .sleeping E.inputAddr
        context := ⟨.setIntena false :: .popOff :: .getcharLoop r :: k, s.hart.stack⟩ } := by
  let c := .popOff :: .getcharLoop r :: k
  let s₁ : Sys T := Sys.goto { s with hart := s.hart.masked 1 } (.sleepMark .input :: .sched :: c)
  let s₂ : Sys T := (s₁.setProc i (fun q => { q with state := .sleeping E.inputAddr })).goto (.sched :: c)
  have hcheck : Forced E (polled s r k)
      (Sys.goto (polled s r k) (.release .input :: .sleepMark .input :: .sched :: c)) := by
    refine .of_exec rfl rfl rfl fun _ => ?_
    rcases getcharCheck_eq (polled s r k) r k with ⟨_, heq⟩ | ⟨hne, _⟩
    · exact congrArg Except.ok heq
    · exact absurd he hne
  have hrelease : Forced E
      (Sys.goto (polled s r k) (.release .input :: .sleepMark .input :: .sched :: c)) s₁ :=
    .of_exec rfl rfl rfl fun junk => exec_release E junk hfree
      { s.hart with code := .release .input :: .sleepMark .input :: .sched :: c } 1 _
  have hmark : Forced E s₁ s₂ :=
    .of_exec rfl rfl rfl fun junk => exec_sleepMark E junk (s := s₁) hc .input _
  obtain ⟨hcur, hp⟩ := Sys.currentProc_eq hc
  have hp₂ : s₂.proc i = some { p with state := .sleeping E.inputAddr } := by
    show (s₁.setProc i _).proc i = _
    rw [Sys.proc_setProc, if_pos rfl, show s₁.proc i = some p from hp]
    rfl
  have hsched := fun junk => exec_sched E junk (s := s₂) rfl (Sys.currentProc_some hcur hp₂)
    (fun hst => by cases hst) c
  refine ⟨_, .tail (.tail (.tail (.tail (polls hcode hoff hdepth hfree) hcheck) hrelease) hmark)
    (.of_exec rfl rfl rfl hsched), rfl, ?_⟩
  show (s₂.setProc i _).proc i = _
  rw [Sys.proc_setProc, if_pos rfl, hp₂]
  rfl

end Console

/-- The end of a read: what it took is gone, whether the user gets it or not. -/
theorem Serving.readRest_exact (h : Serving E pool s i p t (.block ⟨buf, cap⟩ :: R)) (f : TrapFrame)
    (ptr : Nat) (byte : UInt8) :
    ∃ (s' : Sys T) (n : Nat), readRest s f ptr cap buf byte = .ok (s'.goto [.sysRet f n]) ∧
      s'.input = (drain s (cap - 1)).2.input ∧
      (¬Ready s.phys.mem t [pteU, pteW] ptr ((drain s (cap - 1)).1.length + 1) ∧ n = err ∨
        Ready s.phys.mem t [pteU, pteW] ptr ((drain s (cap - 1)).1.length + 1) ∧
          n = (drain s (cap - 1)).1.length + 1) := by
  have hdrain : drain s (cap - 1) =
      ((drain s (cap - 1)).1, { s with input := (drain s (cap - 1)).2.input }) :=
    Prod.ext rfl (drain_eq s (cap - 1))
  generalize (drain s (cap - 1)).1 = bytes at hdrain ⊢
  generalize (drain s (cap - 1)).2.input = input at hdrain ⊢
  have hs : Serving E pool { s with input := input } i p t (.block ⟨buf, cap⟩ :: R) :=
    ⟨h.current, h.space, h.satp, h.books.congr rfl rfl rfl rfl rfl⟩
  unfold readRest copyOut
  rw [hdrain]
  dsimp only
  rcases copyToUser_spec hs.caller ptr (byte :: bytes) with ⟨hno, hrun⟩ | ⟨hyes, m', hrun, _⟩
  · obtain ⟨s', hd⟩ := (hs.books.perm (.swap _ _ _)).dealloc_total
    refine ⟨s', err, ?_, by rw [OnlyMem.dealloc hd], .inl ⟨hno, rfl⟩⟩
    rw [hrun, ok_bind]
    dsimp only
    rw [ok_bind]
    dsimp only
    rw [show Sys.dealloc _ buf = .ok s' from hd]
    rfl
  · have hs' := ((hs.copyToUser_ends ptr (byte :: bytes)).result hrun).2.1
    obtain ⟨s', hd⟩ := (hs'.books.perm (.swap _ _ _)).dealloc_total
    refine ⟨s', bytes.length + 1, ?_, by rw [OnlyMem.dealloc hd], .inr ⟨hyes, rfl⟩⟩
    rw [hrun, ok_bind]
    dsimp only
    rw [ok_bind]
    dsimp only
    rw [show Sys.dealloc _ buf = .ok s' from hd]
    rfl

/-- The caller, with what the piece at the front carries. -/
theorem Sane.attends (h : Sane E pool lost s) (hcode : s.hart.code = x :: k) (ha : Acts s i p t) :
    ∃ R, Serving E pool s i p t (carried E x ++ R) := by
  have hp := (Sys.currentProc_eq ha.caller).2
  obtain ⟨L, hslots, _⟩ := slots_change hp hp (fun _ _ => rfl)
  have hsame : SameCtx s s := ⟨rfl, fun _ => rfl⟩
  obtain ⟨R, hb, _⟩ := h.ledger.piece (A := [.proc p.toProcData]) hsame hcode hslots
  exact ⟨R, .of_books (hb.perm List.perm_middle) ha.caller ha.space
    (h.satp_page ha.caller ha.stack ha.settled)⟩

/-- A read from U-mode looks at the ring with interrupts off. -/
theorem Sane.reading (h : Sane E pool lost s)
    (hcode : s.hart.code = [.getcharLoop (.user f ptr cap buf)]) :
    s.hart.sie = false ∧ s.hart.noff = 0 ∧ ∃ i p t, Acts s i p t := by
  obtain ⟨S, lvl, top, hh⟩ := h.control
  obtain ⟨rfl, rfl, _⟩ := hh.leads hcode
  obtain ⟨i, p, t, hcaller, hspace, _⟩ := hh.caller h.manned hcode rfl
  obtain ⟨_, _, _, _, ⟨_, hstack, _⟩, _⟩ := hh.place
  refine ⟨hh.reads.2, hh.reads.1, i, p, t, hcaller, hspace, ?_, fun r hr => ?_⟩
  · rw [hstack]
    exact nofun
  · rw [hcode] at hr
    cases List.mem_singleton.mp hr

theorem reading_sized (h : Reachable E reserved s)
    (hcode : s.hart.code = [.getcharLoop (.user f ptr cap buf)]) : 0 < cap ∧ cap ≤ writeMax := by
  obtain ⟨S, lvl, top, hh⟩ := h.controlled
  obtain ⟨rfl, _⟩ := hh.leads hcode
  obtain ⟨i, p, hat, _⟩ := hh.place
  have hsized := reachable_sized h hat.here
  rw [codeOf_hart hat.empty, hcode] at hsized
  simpa [Instr.sized, Reader.sized] using hsized

/-- Can the user take the first `n` bytes of the buffer? -/
def Takes (s : Sys T) (ptr n : Nat) : Prop :=
  ∀ k < n, ∃ pa, MapsTo s.phys (Proc.currentRoot s) (ptr + k) pa [pteU, pteW]

theorem Serving.takes_iff (h : Serving E pool s i p t R) (hn : 0 < n) :
    Takes s ptr n ↔ Ready s.phys.mem t [pteU, pteW] ptr n := by
  unfold Takes
  rw [h.caller.root, ready_bytes hn]

/-- A read that finds input comes back with interrupts off all the way. It takes
what it asked for out of the ring even if the user cannot take it. -/
theorem read_returns (h : Reachable E reserved s)
    (hcode : s.hart.code = [.getcharLoop (.user f ptr cap buf)]) (hne : pending s.input ≠ []) :
    ∃ n s', Relation.ReflTransGen (Forced E) s s' ∧ s'.hart.code = [.sysRet f n] ∧
      pending s'.input = (pending s.input).drop cap ∧ 0 < cap ∧
      (¬Takes s ptr (min cap (pending s.input).length) ∧ n = err ∨
        Takes s ptr (min cap (pending s.input).length) ∧ n ≠ err) := by
  obtain ⟨res, lost, _, hs⟩ := reachable_sane h
  obtain ⟨hoff, hdepth, i, p, t, ha⟩ := hs.reading hcode
  obtain ⟨hpos, hmax⟩ := reading_sized h hcode
  have hring := reachable_ring h
  have hidx : s.input.r ≠ s.input.w := fun he => hne (pending_nil.mpr (Nat.le_of_eq he.symm))
  have hfree : s.locked .input = false := (reachable_locked h).none_taken (by rw [hcode]; rfl) _
  have hfound := found (E := E) hcode hoff hdepth hfree hidx
  generalize hbyte : s.input.buf (s.input.r % inputCap) = byte at hfound
  let s₁ : Sys T := Sys.goto { s with
    input := { s.input with r := s.input.r + 1 }
    hart := s.hart.masked 0 } [.gotChar (.user f ptr cap buf) byte]
  obtain ⟨res', lost', _, hs₁⟩ := reachable_sane (h.steps (Forced.steps hfound))
  have ha₁ : Acts s₁ i p t :=
    ⟨ha.caller, ha.space, ha.stack, fun r hr => by cases List.mem_singleton.mp hr⟩
  obtain ⟨R, hserve⟩ := hs₁.attends rfl ha₁
  obtain ⟨s₂, n, hrun, hin, hout⟩ := hserve.readRest_exact f ptr byte
  obtain ⟨_, hbytes, hrest⟩ := drain_spec (s := s₁) (hring.pop hidx) (cap - 1)
  have hpend : pending s.input = byte :: pending s₁.input := hbyte ▸ hring.pending_pop hidx
  have hlen : (drain s₁ (cap - 1)).1.length + 1 = min cap (pending s.input).length := by
    rw [hbytes, hpend, List.length_take, List.length_cons]
    omega
  have hmin : 0 < min cap (pending s.input).length := by omega
  have htakes : Takes s ptr (min cap (pending s.input).length) ↔
      Ready s₁.phys.mem t [pteU, pteW] ptr (min cap (pending s.input).length) := hserve.takes_iff hmin
  refine ⟨n, s₂.goto [.sysRet f n], .tail hfound (.of_exec rfl rfl rfl fun _ => hrun), rfl, ?_, hpos, ?_⟩
  · show pending s₂.input = _
    obtain ⟨c, rfl⟩ : ∃ c, cap = c + 1 := ⟨cap - 1, by omega⟩
    rw [hin, hrest, hpend, Nat.add_sub_cancel, List.drop_succ_cons]
  · rw [hlen] at hout
    rw [htakes]
    rcases hout with ⟨hno, rfl⟩ | ⟨hyes, rfl⟩
    · exact .inl ⟨hno, rfl⟩
    · refine .inr ⟨hyes, ?_⟩
      unfold err
      unfold writeMax at hmax
      omega

namespace Inside

/-- A key is pressed while the program computes. -/
theorem typed (h : Inside s i p t) (hr : Reachable E reserved s) (byte : UInt8) :
    ∃ s', Relation.ReflTransGen (Step E) s s' ∧ Inside s' i p t ∧ pending s'.input ≠ [] ∧
      s'.phys = s.phys ∧ s'.heap = s.heap ∧ s'.kernelRoot = s.kernelRoot ∧ s'.nextPid = s.nextPid ∧
      fixed s' = fixed s := by
  obtain ⟨S, lvl, top, hh⟩ := hr.controlled
  obtain ⟨rfl, rfl, _⟩ := hh.leads h.code
  obtain ⟨j, q, hat, hrunning, _⟩ := hh.place
  obtain rfl := hat.unique h.caller
  have hdepth : s.hart.noff = 0 := hh.reads
  have hfree : s.locked .input = false := (reachable_locked hr).none_taken (by rw [h.code]; rfl) _
  let c₄ : List (Instr T) := [.trapRet (Trap.frameOf s.hart)]
  let c₃ : List (Instr T) := .wakeAll E.inputAddr :: .popOff :: c₄
  let c₂ : List (Instr T) := .release .input :: .pushOff :: c₃
  let s₀ := Trap.fromUser s (.acquire .input :: .ringPush byte :: c₂)
  let s₁ : Sys T := { s₀ with hart := s₀.hart.masked 1, locked := fun l => if l = .input then true else s.locked l }
  let s₂ : Sys T := { s₀ with input := (ringPush (s₁.goto (.ringPush byte :: c₂)) byte).input }
  let s₃ : Sys T := Proc.wakeAll (Sys.goto { s₂ with hart := s₀.hart.masked 1 } c₃) E.inputAddr
  have hkey : Step E s s₀ := .userInterrupt (.uart [byte]) h.code
  have hlock : Forced E s₀ (s₁.goto (.ringPush byte :: c₂)) := by
    refine .of_exec rfl rfl rfl fun junk => (exec_acquire E junk (s := s₀) hfree _).trans ?_
    rw [pushOff_masked s₀.hart rfl hdepth]
    rfl
  have hpush : Forced E (s₁.goto (.ringPush byte :: c₂)) (Sys.goto { s₁ with input := s₂.input } c₂) := by
    refine .of_exec rfl rfl rfl fun _ => ?_
    show Except.ok (Sys.goto (ringPush _ byte) c₂) = _
    rw [ringPush_eq]
    rfl
  have hrelease : Forced E (Sys.goto { s₁ with input := s₂.input } c₂)
      (Sys.goto { s₂ with hart := s₀.hart.masked 0 } (.pushOff :: c₃)) :=
    .of_exec rfl rfl rfl fun junk => exec_release E junk (s := s₂) hfree { s₀.hart with code := c₂ } 0 _
  have hmask : Forced E (Sys.goto { s₂ with hart := s₀.hart.masked 0 } (.pushOff :: c₃))
      (Sys.goto { s₂ with hart := s₀.hart.masked 1 } c₃) :=
    .of_exec rfl rfl rfl fun junk => exec_pushOff E junk
      (s := Sys.goto { s₂ with hart := s₀.hart.masked 0 } (.pushOff :: c₃)) rfl rfl _
  have hwake : Forced E (Sys.goto { s₂ with hart := s₀.hart.masked 1 } c₃) (s₃.goto (.popOff :: c₄)) :=
    .of_exec rfl rfl rfl fun _ => rfl
  have hpop : Forced E (s₃.goto (.popOff :: c₄)) (Sys.goto { s₃ with hart := s₀.hart.masked 0 } c₄) :=
    .of_exec rfl rfl rfl fun junk => exec_popOff E junk s₃ { s₀.hart with code := .popOff :: c₄ } 0 _
  have hback : Forced E (Sys.goto { s₃ with hart := s₀.hart.masked 0 } c₄)
      (Trap.ret (Sys.goto { s₃ with hart := s₀.hart.masked 0 } c₄) (Trap.frameOf s.hart)) :=
    .of_exec rfl rfl rfl fun _ => rfl
  have hall : Relation.ReflTransGen (Forced E) s₀ _ := .tail (.tail (.tail (.tail (.tail (.tail
    (.single hlock) hpush) hrelease) hmask) hwake) hpop) hback
  refine ⟨_, .head hkey (Forced.steps hall), ⟨rfl, rfl, ?_, h.space⟩, ?_, rfl, rfl, rfl, rfl, rfl⟩
  · obtain ⟨hcur, hp⟩ := Sys.currentProc_eq h.caller
    refine Sys.currentProc_some hcur ?_
    have hwoken := Proc.wakeAll_proc (Sys.goto { s₂ with hart := s₀.hart.masked 1 } c₃) E.inputAddr i
    have hawake : Proc.wakeProc E.inputAddr q = q := if_neg (by rw [hrunning]; exact nofun)
    have hsame : (Sys.goto { s₂ with hart := s₀.hart.masked 1 } c₃).proc i = some q := hp
    rw [hsame, Option.map_some, hawake] at hwoken
    exact hwoken
  · show pending s₂.input ≠ []
    have hring : Ring s.input := reachable_ring hr
    rw [(ringPush_spec (s := s₁.goto (.ringPush byte :: c₂)) hring byte).2]
    split
    · exact List.append_ne_nil_of_right_ne_nil _ (List.cons_ne_nil _ _)
    · rename_i hfull
      intro hnil
      rw [hnil] at hfull
      exact hfull (by decide)

/-- The program asks for one byte. -/
theorem asks (h : Inside s i p t) (hr : Reachable E reserved s) (hi : p.image = some prog)
    (hptr : ptr < 2 ^ 64) (halloc : (s.called 6 ptr 1).alloc 1 0 = .ok (buf, s₁)) :
    Relation.ReflTransGen (Step E) s (s₁.goto [.getcharLoop (.user (s.callFrame 6 ptr 1) ptr 1 buf)]) := by
  have hread : exec E (fun _ => 0) (s.called 6 ptr 1)
      (.kerneltrap (Trap.frameOf (s.computed (callRegs 6 ptr 1) userText).hart) 8 0) [] =
        ((s.called 6 ptr 1).alloc 1 0).bind (fun r =>
          .ok (r.2.goto [.getcharLoop (.user (s.callFrame 6 ptr 1) ptr 1 r.1)])) := rfl
  rw [halloc] at hread
  have hhandle : Step E (s.called 6 ptr 1)
      (s₁.goto [.getcharLoop (.user (s.callFrame 6 ptr 1) ptr 1 buf)]) := .exec (fun _ => 0) rfl hread
  exact .tail (h.calls hr hi 6 ptr 1 (by decide) hptr (by decide)) hhandle

end Inside

/-- The first process reads, with a byte waiting, into the given buffer. -/
theorem Userland.reads (h : Userland s d e) (ht : d.userTable = some t) (hptr : ptr < 2 ^ 64) :
    ∃ (s' : Sys T) (f : TrapFrame) (buf : Nat), Reachable smallEnv none s' ∧ Acts s' 0 (Proc.seated d) t ∧
      s'.hart.code = [.getcharLoop (.user f ptr 1 buf)] ∧ pending s'.input ≠ [] := by
  obtain ⟨s₁, hsteps, hin, hpend, hphys, hheap, hroot, hpid, hfix⟩ := (h.inside ht).typed h.reachable 65
  have hr₁ := h.reachable.steps hsteps
  have hbooks : Books smallEnv _ (s₁.called 6 ptr 1) [.proc d, .proc e] :=
    h.books.congr hroot hphys hheap hpid hfix
  have hample : Ample smallEnv (s₁.called 6 ptr 1) [.proc d, .proc e] 20000 7000000 6 := by
    refine ⟨?_, ?_, ?_⟩
    · show _ ≤ s₁.phys.freePages
      rw [hphys]
      exact h.ample.pages
    · show _ ≤ s₁.heap.freeBytes
      rw [hheap]
      exact h.ample.bytes
    · show (_ ++ fixed s₁).length ≤ _
      rw [hfix]
      exact h.ample.blocks
  obtain ⟨buf, s₂, halloc, hm, _⟩ := hbooks.alloc_room hample (k := 0) (n := 1) (by decide) (by decide)
    (by decide) (by decide)
  have hacts := hin.called_acts 6 ptr 1
  refine ⟨_, _, buf, hr₁.steps (hin.asks hr₁ h.first.image hptr halloc),
    ⟨?_, ht, ?_, fun r hr => by cases List.mem_singleton.mp hr⟩, rfl, ?_⟩
  · exact (OnlyMem.currentProc hm).trans hacts.caller
  · show s₂.hart.stack ≠ _
    rw [hm]
    exact hacts.stack
  · show pending s₂.input ≠ _
    rw [hm]
    exact hpend

/-- `SYS_READ` up to its buffer. -/
theorem dispatch_read (hcall : call f.a7 = some .read) (run : dispatch E s f = .ok s') :
    s'.input = s.input ∧ (s'.hart.code = [.sysRet { f with sepc := f.sepc + 4 } 0] ∨
      ∃ buf, s'.hart.code =
        [.getcharLoop (.user { f with sepc := f.sepc + 4 } f.a0 (min f.a1 writeMax) buf)]) := by
  simp only [dispatch, bind_ok] at run
  obtain ⟨sepc, hsepc, run⟩ := run
  obtain ⟨rfl, _⟩ := Heap.checked_eq hsepc
  rw [show call (TrapFrame.a7 { f with sepc := f.sepc + 4 }) = some .read from hcall] at run
  simp only [sysRead] at run
  split at run
  · obtain rfl := Except.ok.inj run
    exact ⟨rfl, .inl rfl⟩
  · simp only [bind_ok, Except.ok.injEq] at run
    obtain ⟨⟨buf, s₁⟩, halloc, rfl⟩ := run
    have hin : s₁.input = s.input := by rw [OnlyMem.alloc halloc]
    exact ⟨hin, .inr ⟨buf, rfl⟩⟩

/-- `SYS_READ` touches the ring only behind its buffer's allocation: an empty
ring puts it to sleep, and input it finds is lost to a buffer that cannot take
it. A failed read leaves the input as it was exactly if the buffer could have
taken it, in which case it does not fail. -/
theorem sys_read_keeps_input (h : Reachable E reserved s) :
    (∀ f stval s', s.hart.code = [.kerneltrap f 8 stval] → Syscall.call f.a7 = some .read →
      Step E s s' → s'.input = s.input ∧ (s'.hart.code = [.sysRet { f with sepc := f.sepc + 4 } 0] ∨
        ∃ buf, s'.hart.code =
          [.getcharLoop (.user { f with sepc := f.sepc + 4 } f.a0 (min f.a1 writeMax) buf)])) ∧
    ∀ f ptr cap buf, s.hart.code = [.getcharLoop (.user f ptr cap buf)] →
      (pending s.input = [] → ∃ s' i q, Relation.ReflTransGen (Forced E) s s' ∧ s'.input = s.input ∧
        s'.proc i = some q ∧ q.state = .sleeping E.inputAddr ∧
        q.context.code = [.setIntena false, .popOff, .getcharLoop (.user f ptr cap buf)]) ∧
      (pending s.input ≠ [] → ∃ n s', Relation.ReflTransGen (Forced E) s s' ∧
        s'.hart.code = [.sysRet f n] ∧
        ((n = err → pending s'.input = pending s.input) ↔
          Takes s ptr (min cap (pending s.input).length))) := by
  obtain ⟨res, lost, _, hs⟩ := reachable_sane h
  refine ⟨fun f stval s' hcode hcall move => ?_, fun f ptr cap buf hcode => ⟨fun hnil => ?_, fun hne => ?_⟩⟩
  · have hoff : s.hart.sie = false := by
      obtain ⟨S, lvl, top, hh⟩ := hs.control
      obtain ⟨_, rfl, _⟩ := hh.leads hcode
      exact hh.reads.2
    obtain ⟨junk, run⟩ := move.quiet hcode hoff rfl
    exact dispatch_read hcall run
  · obtain ⟨hoff, hdepth, i, p, t, ha⟩ := hs.reading hcode
    have hfree : s.locked .input = false := (reachable_locked h).none_taken (by rw [hcode]; rfl) _
    have he : s.input.r = s.input.w :=
      Nat.le_antisymm (reachable_ring h).order (pending_nil.mp hnil)
    obtain ⟨s', hsteps, hin, hq⟩ := starved (E := E) hcode hoff hdepth hfree he ha.caller
    exact ⟨s', i, _, hsteps, hin, hq, rfl, rfl⟩
  · obtain ⟨n, s', hsteps, hret, hpend, hpos, hcase⟩ := read_returns h hcode hne
    refine ⟨n, s', hsteps, hret, ?_⟩
    rcases hcase with ⟨hno, rfl⟩ | ⟨hyes, hok⟩
    · refine ⟨fun hkeep => ?_, fun hyes => absurd hyes hno⟩
      have hlen := congrArg List.length (hpend.symm.trans (hkeep rfl))
      have hsome := List.length_pos_iff.mpr hne
      rw [List.length_drop] at hlen
      omega
    · exact ⟨fun _ => hyes, fun _ hn => absurd hn hok⟩

/-- A read into the stack. -/
theorem sys_read_keeps_input_stack : ∃ (s s' : Sys Nat) (f : TrapFrame) (buf n : Nat),
    Reachable smallEnv none s ∧
    s.hart.code = [.getcharLoop (.user f (userStackTop - 8) 1 buf)] ∧ pending s.input ≠ [] ∧
    Relation.ReflTransGen (Forced smallEnv) s s' ∧ s'.hart.code = [.sysRet f n] ∧
    (n = err → pending s'.input = pending s.input) := by
  obtain ⟨s₀, d, e, hu⟩ := userland Nat
  obtain ⟨t, u, ht, _⟩ := hu.roots
  obtain ⟨s, f, buf, hr, ha, hcode, hne⟩ := hu.reads ht (show userStackTop - 8 < 2 ^ 64 by decide)
  obtain ⟨n, s', hsteps, hret, hiff⟩ := ((sys_read_keeps_input hr).2 f _ 1 buf hcode).2 hne
  refine ⟨s, s', f, buf, n, hr, hcode, hne, hsteps, hret, hiff.mpr fun k hk => ?_⟩
  obtain ⟨res, lost, _, hs⟩ := reachable_sane hr
  obtain rfl : k = 0 := by omega
  have huse := hs.stack_usable (Sys.currentProc_eq ha.caller).2 ht hu.first.image
    (show userStackTop - pageSize ≤ userStackTop - 8 by decide) (by decide)
  obtain ⟨R, _, hserve⟩ := hs.serving ha
  obtain ⟨pte, hmap, hbits⟩ := huse.mapsTo (P := s.phys) (fun b hb => by simpa using hb)
  rw [hserve.caller.root]
  exact ⟨_, pte, hmap, fun b hb => hbits b (List.mem_cons_of_mem _ hb)⟩

/-- A byte read to address zero is gone. -/
theorem input_lost : ∃ (s s' : Sys Nat) (f : TrapFrame) (buf : Nat), Reachable smallEnv none s ∧
    s.hart.code = [.getcharLoop (.user f 0 1 buf)] ∧ pending s.input ≠ [] ∧
    Relation.ReflTransGen (Forced smallEnv) s s' ∧ s'.hart.code = [.sysRet f err] ∧
    pending s'.input = (pending s.input).tail ∧ pending s'.input ≠ pending s.input := by
  obtain ⟨s₀, d, e, hu⟩ := userland Nat
  obtain ⟨t, u, ht, _⟩ := hu.roots
  obtain ⟨s, f, buf, hr, ha, hcode, hne⟩ := hu.reads ht (show 0 < 2 ^ 64 by decide)
  obtain ⟨n, s', hsteps, hret, hpend, _, hcase⟩ := read_returns hr hcode hne
  rw [List.drop_one] at hpend
  rcases hcase with ⟨_, rfl⟩ | ⟨hyes, _⟩
  · refine ⟨s, s', f, buf, hr, hcode, hne, hsteps, hret, hpend, fun he => ?_⟩
    have hlen := congrArg List.length (hpend.symm.trans he)
    have hsome := List.length_pos_iff.mpr hne
    rw [List.length_tail] at hlen
    omega
  · -- no user page lies in the first gigabyte
    obtain ⟨res, lost, _, hs⟩ := reachable_sane hr
    obtain ⟨R, _, hserve⟩ := hs.serving ha
    have hsome := List.length_pos_iff.mpr hne
    obtain ⟨e, hl, hbits⟩ := (mapsTo_look (by decide)).mp (hyes 0 (by omega))
    rw [hserve.caller.root] at hl
    have hslot := user_slot hserve.root hserve.caller.laid.kernel hl (hbits pteU (by simp))
    exact absurd hslot (by decide)

end Osmium
