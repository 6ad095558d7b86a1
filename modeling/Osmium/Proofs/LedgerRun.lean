import Osmium.Proofs.Lifetime

namespace Osmium
open Lib Vm Control

variable {T : Type} {E : Env} {pool : PagePool E.allocStart} {s s' : Sys T}

/-- User-mode code of the current process runs on the process's own space. -/
theorem Control.Holds.caller (h : Holds .thread lvl top s) (hm : Manned s)
    (hcode : s.hart.code = i :: k) (hu : i.user = true) :
    ∃ j p t, s.currentProc = some (j, p) ∧ p.userTable = some t ∧ s.hart.satp = p.pageTable := by
  obtain ⟨j, p, ht, _, _, hsat⟩ := h.place
  cases hut : p.userTable with
  | some t => exact ⟨j, p, t, Sys.currentProc_some ht.current ht.here, hut, hsat⟩
  | none =>
    have hk := hm j p ht.here hut
    rw [codeOf_hart ht.empty, hcode] at hk
    rw [hk.mem List.mem_cons_self] at hu
    cases hu

/-- A trap that found a program to run: the kernel forgets the name's buffer. -/
def Execs (s s' : Sys T) : Prop :=
  (∃ f code stval k, s.hart.code = .kerneltrap f code stval :: k) ∧
    ∃ prog, s'.hart.code = [.loadImage prog .exec]

/-- What a step leaves to nobody. -/
structure Leaks (s s' : Sys T) (leak : List Heap.Live) : Prop where
  none : ¬Execs s s' → leak = []
  one : Execs s s' → ∃ a, leak = [a]

theorem Leaks.nil (h : ¬Execs s s') : Leaks s s' [] := ⟨fun _ => rfl, fun he => absurd he h⟩

def Instr.traps : Instr T → Bool
  | .kerneltrap .. => true
  | _ => false

theorem Leaks.other (hcode : s.hart.code = i :: k) (h : i.traps = false) : Leaks s s' [] := by
  refine .nil fun hex => ?_
  obtain ⟨⟨f, code, stval, k', he⟩, _⟩ := hex
  rw [hcode] at he
  rw [(List.cons.inj he).1] at h
  cases h

namespace Ledger

/-- The current process is served by a trap or by the end of a read. -/
theorem handled (hl : Ledger E pool lost s) (hctx : SameCtx s s') (hcode : s.hart.code = [i])
    (hc : s.currentProc = some (j, p))
    (hs : ∀ R, Books E pool s (carried E i ++ (.proc p.toProcData :: R)) → Handled E pool s j t R s') :
    ∃ leak, Ledger E pool (leak ++ lost) s' ∧
      ((leak = [] ∧ ∀ prog, s'.hart.code ≠ [.loadImage prog .exec]) ∨
        ∃ a prog, leak = [a] ∧ s'.hart.code = [.loadImage prog .exec]) := by
  obtain ⟨hcur, hp⟩ := Sys.currentProc_eq hc
  obtain ⟨L₀, hslots, _⟩ := slots_change hp hp (fun _ _ => rfl)
  obtain ⟨R, hb, close⟩ := hl.piece (A := [.proc p.toProcData]) hctx hcode hslots
  obtain ⟨leak, ⟨p', hp', hothers⟩, hleak⟩ := hs R hb
  obtain ⟨_, hp''⟩ := Sys.currentProc_eq hp'.current
  obtain ⟨L₁, hslots₁, hslots'⟩ := slots_change hp hp'' hothers
  have hL : L₁.Perm L₀ := (List.perm_cons _).mp (hslots₁.symm.trans hslots)
  refine ⟨leak, close _ [.proc p'.toProcData] leak (List.append_nil _).symm
    (hslots'.trans (hL.cons _)) (hp'.books.perm ?_), hleak⟩
  exact List.perm_middle.symm.trans (List.perm_middle.symm.append_left _)

theorem publish (hl : Ledger E pool lost s) (hr : Roomy s) (hcode : s.hart.code = .publish d :: k)
    (run : Proc.publish s d = .ok s') : Ledger E pool lost (s'.goto k) := by
  have hb := (Books.publish_ends hl hr d).result run
  obtain ⟨s₁, slot, hg, _, he, _, hprocs⟩ := Proc.publish_eq run
  have hsched : s'.schedulerCtx = s.schedulerCtx := by
    rw [he]
    rcases hg with rfl | hg
    · rfl
    · exact (Serves.growProcs hg).sched
  refine of_perm ?_ (hb.congr rfl rfl rfl rfl rfl)
  have hslots : (slots (s'.goto k)).Perm (.proc d :: slots s) :=
    (hprocs.map Process.toProcData).map Asset.proc
  have hctxs : ((s'.procs.reduceOption.map (fun p => p.context.code)).flatMap
      (fun c => c.flatMap (carried E))).Perm
      ((s.procs.reduceOption.map (fun p => p.context.code)).flatMap
        (fun c => c.flatMap (carried E))) :=
    (hprocs.map (fun p => p.context.code)).flatMap_right (fun c => c.flatMap (carried E))
  unfold stock gather codes
  rw [hcode]
  show (slots (s'.goto k) ++ (k :: s'.schedulerCtx.code :: _).flatMap _).Perm _
  rw [hsched]
  simp only [List.flatMap_cons, carried]
  refine (hslots.append ((hctxs.append_left _).append_left _)).trans ?_
  exact List.perm_middle.symm

theorem reap (hl : Ledger E pool lost s) (hb : ∀ l q, s.proc l = some q → Ctx s.kernelRoot q)
    (hcode : s.hart.code = [.reap j]) (run : Proc.reapLoop E s j = .ok s') :
    Ledger E pool lost s' := by
  unfold Proc.reapLoop at run
  split at run
  · simp only [bind_ok, Except.ok.injEq] at run
    obtain ⟨s₁, hr, rfl⟩ := run
    have hreap := Proc.reap_eq hr
    rcases hreap with ⟨rfl, _⟩ | ⟨p, _, s₂, hp, hz, _, _, hm, he⟩
    · refine hl.trade (c := [.reap (j + 1)]) (sameCtx_goto _ _) hcode (fun _ => rfl) rfl
        fun R h => h.congr rfl rfl rfl rfl rfl
    · obtain ⟨Ps, hall, _, hset⟩ := procs_split hp
      obtain ⟨b, hdead⟩ := (hb j p hp).1 hz
      have hprocs : s₁.procs.reduceOption = Ps := by
        rw [he]
        show (s.procs.set j none).reduceOption = Ps
        exact hset
      have hsched : s₁.schedulerCtx = s.schedulerCtx := by
        rw [he]
        show s₂.schedulerCtx = _
        rw [hm]
      have hslots : (slots s).Perm (.proc p.toProcData :: slots (s₁.goto [.reap (j + 1)])) := by
        have h := (hall.map Process.toProcData).map Asset.proc
        rw [← hprocs] at h
        exact h
      have hstock : (stock E s).Perm (.proc p.toProcData :: stock E (s₁.goto [.reap (j + 1)])) := by
        have hctxs := (hall.map (fun p => p.context.code)).flatMap_right
          (fun c => c.flatMap (carried E))
        rw [← hprocs, List.map_cons, List.flatMap_cons, hdead] at hctxs
        unfold stock gather codes
        rw [hcode]
        show (slots s ++ (s.schedulerCtx.code.flatMap (carried E) ++ _)).Perm
          (.proc p.toProcData :: slots (s₁.goto [.reap (j + 1)]) ++
            (s₁.schedulerCtx.code.flatMap (carried E) ++ _))
        rw [hsched]
        exact hslots.append (hctxs.append_left _)
      have hbooks : Books E pool s (.proc p.toProcData ::
          (lost.map .block ++ stock E (s₁.goto [.reap (j + 1)]))) :=
        Books.perm hl ((hstock.append_left _).trans List.perm_middle)
      exact ((hbooks.reap_ends hp hz).result hr).congr rfl rfl rfl rfl rfl
  · obtain rfl := Except.ok.inj run
    exact hl.trade (c := [.pick]) (sameCtx_goto _ _) hcode (fun _ => rfl) rfl
      fun R h => h.congr rfl rfl rfl rfl rfl

/-- A piece of code that only reaches into memory, the counters and the hart. -/
theorem same (hl : Ledger E pool lost s) (hctx : SameCtx s s') (hcode : s.hart.code = i :: k)
    (hp : s'.procs = s.procs) (hc' : s'.hart.code = c ++ k)
    (step : ∀ R, Books E pool s (carried E i ++ R) → Books E pool s' (c.flatMap (carried E) ++ R)) :
    Ledger E pool lost s' := by
  refine hl.trade hctx hcode (fun j => ?_) hc' step
  unfold Sys.proc
  rw [hp]

/-- Code that changes hands without a trace in memory. -/
theorem pass (hl : Ledger E pool lost s) (hcode : s.hart.code = i :: k)
    (hc : c.flatMap (carried E) = carried E i) : Ledger E pool lost (s.goto (c ++ k)) := by
  refine hl.same (sameCtx_goto _ _) hcode rfl rfl fun R h => ?_
  rw [hc]
  exact h.congr rfl rfl rfl rfl rfl

theorem loadImage (hl : Ledger E pool lost s) (hcode : s.hart.code = .loadImage prog fin :: k)
    (run : Proc.loadImage E s prog fin k = .ok s') : Ledger E pool lost s' := by
  unfold Proc.loadImage at run
  split at run
  · cases run
  · simp only [bind_ok, Except.ok.injEq] at run
    obtain ⟨⟨t, P⟩, hmake, rfl⟩ := run
    refine hl.same (c := [.loadText prog t 0 fin]) ⟨rfl, fun _ => rfl⟩ hcode rfl rfl fun R h => ?_
    have hplan : (⟨min 0 (Proc.npages E prog), false, userHeapBase⟩ : Plan) = .empty := by
      rw [Nat.zero_min]
      rfl
    simp only [List.flatMap_cons, List.flatMap_nil, carried, hplan]
    exact (h.make hmake).congr rfl rfl rfl rfl rfl

theorem loadText (hl : Ledger E pool lost s) (hcode : s.hart.code = .loadText prog t n fin :: k)
    (run : Proc.loadText E s prog t n fin k = .ok s') : Ledger E pool lost s' := by
  unfold Proc.loadText at run
  split at run
  next hn =>
    simp only [bind_ok, Except.ok.injEq] at run
    obtain ⟨P, hload, rfl⟩ := run
    refine hl.same (c := [.loadText prog t (n + 1) fin]) ⟨rfl, fun _ => rfl⟩ hcode rfl rfl
      fun R h => ?_
    have hle : min n (Proc.npages E prog) = n := Nat.min_eq_left (Nat.le_of_lt hn)
    have hle' : min (n + 1) (Proc.npages E prog) = n + 1 := Nat.min_eq_left hn
    simp only [List.flatMap_cons, List.flatMap_nil, carried, hle, hle'] at h ⊢
    exact ((Books.load_page h hn).result hload).1.congr rfl rfl rfl rfl rfl
  next hn =>
    obtain rfl := Except.ok.inj run
    refine hl.pass (c := [.loadStack prog t fin]) hcode ?_
    have hge : min n (Proc.npages E prog) = Proc.npages E prog := Nat.min_eq_right (Nat.le_of_not_lt hn)
    simp only [List.flatMap_cons, List.flatMap_nil, carried, hge, List.append_nil]

theorem loadStack (hl : Ledger E pool lost s) (hcode : s.hart.code = .loadStack prog t fin :: k)
    (run : Proc.loadStack s prog t fin k = .ok s') : Ledger E pool lost s' := by
  simp only [Proc.loadStack, bind_ok, Except.ok.injEq] at run
  obtain ⟨⟨stack, P₁⟩, ha, P, hmap, rfl⟩ := run
  refine hl.same (c := [_]) ⟨rfl, fun _ => rfl⟩ hcode rfl rfl fun R h => ?_
  have hb := ((Books.load_stack h).result (bind_ok.mpr ⟨(stack, P₁), ha, hmap⟩)).1
  cases fin <;> exact hb.congr rfl rfl rfl rfl rfl

/-- A new process is ready to be published. -/
theorem born (hl : Ledger E pool lost s) (hcode : s.hart.code = i :: k) (hctx : SameCtx s s')
    (hA : (slots s).Perm (A ++ L))
    (step : ∀ R, Books E pool s (carried E i ++ (A ++ R)) →
      ∃ d, ∃ s₁ : Sys T, ∃ tail : List (Instr T), s₁.procs = s.procs ∧
      s' = s₁.goto (Proc.publishing d ++ tail ++ k) ∧ tail.flatMap (carried E) = [] ∧
      Books E pool s' (.proc d :: (A ++ R))) : Ledger E pool lost s' := by
  obtain ⟨R, hb, close⟩ := hl.piece hctx hcode hA
  obtain ⟨d, s₁, tail, hp, rfl, htail, hb'⟩ := step R hb
  have hslots : slots (s₁.goto (Proc.publishing d ++ tail ++ k)) = slots s := by
    show (s₁.procs.reduceOption.map _).map _ = _
    rw [hp]
    rfl
  refine close (Proc.publishing d ++ tail) _ [] rfl (hslots ▸ hA) ?_
  rw [List.flatMap_append, htail, List.append_nil]
  exact hb'

theorem execCommit (hl : Ledger E pool lost s) (hcode : s.hart.code = [.execCommit prog t])
    (hc : s.currentProc = some (j, p)) (hctx : SameCtx s s')
    (run : Proc.execCommit s prog t = .ok s') : Ledger E pool lost s' := by
  obtain ⟨_, hp⟩ := Sys.currentProc_eq hc
  obtain ⟨L₀, hslots, _⟩ := slots_change hp hp (fun _ _ => rfl)
  obtain ⟨R, hb, close⟩ := hl.piece (A := [.proc p.toProcData]) hctx hcode hslots
  obtain ⟨s₁, hm, rfl, hb'⟩ := (Books.execCommit_ends hb hc).result run
  have hproc : ∀ l, ((s₁.setProc j (Proc.takeSpace prog t)).goto (Proc.execRest t p)).proc l =
      if l = j then (s.proc l).map (Proc.takeSpace prog t) else s.proc l := by
    intro l
    rw [← hm.proc l]
    exact Sys.proc_setProc s₁ j l _
  have hp' : ((s₁.setProc j (Proc.takeSpace prog t)).goto (Proc.execRest t p)).proc j =
      some (Proc.takeSpace prog t p) := by
    rw [hproc, if_pos rfl, hp]
    rfl
  obtain ⟨L₁, hslots₁, hslots'⟩ := slots_change hp hp' (fun l hl => by rw [hproc, if_neg hl])
  have hL : L₁.Perm L₀ := (List.perm_cons _).mp (hslots₁.symm.trans hslots)
  refine close _ [.proc (Proc.takeSpace prog t p).toProcData] []
    (List.append_nil _).symm (hslots'.trans (hL.cons _)) (hb'.perm ?_)
  have hrest : (Proc.execRest t p).flatMap (carried E (T := T)) =
      (p.userTable.map (Asset.table · none)).toList := by
    unfold Proc.execRest
    cases p.userTable <;> rfl
  show List.Perm _ ((Proc.execRest t p).flatMap (carried E) ++ _)
  rw [hrest]
  exact List.perm_middle.symm

end Ledger

theorem exec_ledger (h : Holds S lvl top s) (hm : Manned s) (hr : Roomy s)
    (hl : Ledger E pool lost s) (hcode : s.hart.code = i :: k)
    (run : exec E junk s i k = .ok s') :
    ∃ leak, Ledger E pool (leak ++ lost) s' ∧ Leaks s s' leak := by
  by_cases hκ : i.kind = .space
  swap
  · refine ⟨[], hl.inert (exec_emits h hcode run) hκ, .other hcode ?_⟩
    cases i <;> first | rfl | exact absurd rfl hκ
  have ht := exec_turns hcode run
  have plain : Ledger E pool lost s' → i.traps = false →
      ∃ leak, Ledger E pool (leak ++ lost) s' ∧ Leaks s s' leak :=
    fun hl' hn => ⟨[], hl', .other hcode hn⟩
  cases i with
  | getcharLoop r =>
    obtain rfl := Except.ok.inj run
    refine plain (hl.pass hcode ?_) rfl
    cases r <;> rfl
  | getcharCheck r =>
    obtain rfl := Except.ok.inj run
    refine plain ?_ rfl
    rcases Console.getcharCheck_eq s r k with ⟨_, he⟩ | ⟨_, he⟩
    · rw [he]
      refine hl.pass
        hcode ?_
      cases r <;> rfl
    · rw [he]
      refine hl.same (c := [.release .input, .popOff, .gotChar r _]) ⟨rfl, fun _ => rfl⟩ hcode rfl
        rfl fun R hb => ?_
      cases r <;> exact hb.congr rfl rfl rfl rfl rfl
  | gotChar r byte =>
    cases r with
    | kernel => cases hκ
    | user f ptr cap buf =>
      obtain ⟨rfl, rfl, rfl⟩ := h.leads hcode
      obtain ⟨j, p, t, hcur, hu, hsat⟩ := h.caller hm hcode rfl
      obtain ⟨leak, hl', hleak⟩ := hl.handled (t := t) (ht.ctx rfl) hcode hcur fun R hb =>
        ((Serving.of_books (hb.perm (.swap _ _ _)) hcur hu hsat).readRest_ends f ptr byte).result run
      have hret := ht.code rfl
      generalize s'.hart.code = c at hret hleak
      cases hret with
      | plain acts => cases acts
      | idle idles => cases idles
      | drop drops => cases drops
      | read n =>
        rcases hleak with ⟨rfl, _⟩ | ⟨_, _, _, he⟩
        · exact plain hl' rfl
        · cases he
  | box size a =>
    simp only [exec, bind_ok, Except.ok.injEq] at run
    obtain ⟨s₁, hb, rfl⟩ := run
    have hp : s₁.procs = s.procs := by
      unfold Proc.box at hb
      split at hb
      · rw [← Except.ok.inj hb]
      · simp only [bind_ok, Except.ok.injEq] at hb
        obtain ⟨⟨p, s₂⟩, ha, rfl⟩ := hb
        show s₂.procs = s.procs
        rw [OnlyMem.alloc ha]
    refine plain (hl.same (c := []) (ht.ctx rfl) hcode hp rfl fun R hR => ?_) rfl
    exact (Books.box_kept hR hb).congr rfl rfl rfl rfl rfl
  | unbox n =>
    simp only [exec, bind_ok, Except.ok.injEq] at run
    obtain ⟨s₁, hb, rfl⟩ := run
    have hp : s₁.procs = s.procs := by
      unfold Proc.unbox at hb
      split at hb
      · rw [← Except.ok.inj hb]
      · simp only [bind_ok, Except.ok.injEq] at hb
        obtain ⟨s₂, hd, rfl⟩ := hb
        show s₂.procs = s.procs
        rw [OnlyMem.dealloc hd]
    refine plain (hl.same (c := []) (ht.ctx rfl) hcode hp rfl fun R hR => ?_) rfl
    exact ((Books.unbox_ends hR n).result hb).congr rfl rfl rfl rfl rfl
  | reap n =>
    obtain ⟨hb, _, rfl⟩ := h.at_reap hcode
    exact plain (hl.reap hb.contexts hcode run) rfl
  | kerneltrap f code stval =>
    obtain ⟨rfl, rfl, rfl⟩ := h.leads hcode
    obtain ⟨j, p, t, hcur, hu, hsat⟩ := h.caller hm hcode rfl
    obtain ⟨leak, hl', hleak⟩ := hl.handled (t := t) (ht.ctx rfl) hcode hcur fun R hb =>
      (Serving.of_books hb hcur hu hsat).kerneltrap_handled run
    refine ⟨leak, hl', fun hn => ?_, fun hex => ?_⟩
    · rcases hleak with ⟨hnil, _⟩ | ⟨_, prog, _, he⟩
      · exact hnil
      · exact absurd ⟨⟨f, code, stval, [], hcode⟩, prog, he⟩ hn
    · obtain ⟨_, prog, he⟩ := hex
      rcases hleak with ⟨_, hne⟩ | ⟨a, _, ha, _⟩
      · exact absurd he (hne prog)
      · exact ⟨a, ha⟩
  | loadImage prog fin => exact plain (hl.loadImage hcode run) rfl
  | loadText prog t n fin => exact plain (hl.loadText hcode run) rfl
  | loadStack prog t fin => exact plain (hl.loadStack hcode run) rfl
  | spawn =>
    refine plain (hl.born (A := []) hcode (ht.ctx rfl) (.refl _) fun R hR => ?_) rfl
    obtain ⟨d, s₁, hp, he, hb⟩ := (Books.spawn_ends hR k).result run
    exact ⟨d, s₁, [], hp, he, rfl, hb⟩
  | spawnUser prog t =>
    refine plain (hl.born (A := []) hcode (ht.ctx rfl) (.refl _) fun R hR => ?_) rfl
    obtain ⟨d, s₁, hp, he, hb⟩ := (Books.spawnUser_ends hR k).result run
    exact ⟨d, s₁, [], hp, he, rfl, hb⟩
  | execCommit prog t =>
    obtain ⟨rfl, rfl, rfl⟩ := h.leads hcode
    obtain ⟨j, p, _, hcur, _, _⟩ := h.caller hm hcode rfl
    exact plain (hl.execCommit hcode hcur (ht.ctx rfl) run) rfl
  | fork f =>
    obtain ⟨rfl, rfl, rfl⟩ := h.leads hcode
    obtain ⟨j, p, t, hcur, hu, _⟩ := h.caller hm hcode rfl
    obtain ⟨L, hslots, _⟩ := slots_change (Sys.currentProc_eq hcur).2 (Sys.currentProc_eq hcur).2
      (fun _ _ => rfl)
    refine plain (hl.born (A := [.proc p.toProcData]) hcode (ht.ctx rfl) hslots fun R hR => ?_) rfl
    obtain ⟨d, s₁, hp, he, hb⟩ := (Books.fork_ends hR hcur List.mem_cons_self hu).result run
    exact ⟨d, s₁, [.sysRet f d.pid], hp, he, rfl, hb⟩
  | publish d =>
    simp only [exec, bind_ok, Except.ok.injEq] at run
    obtain ⟨s₁, hp, rfl⟩ := run
    exact plain (hl.publish hr hcode hp) rfl
  | freeUserTable t =>
    simp only [exec, bind_ok, Except.ok.injEq] at run
    obtain ⟨s₁, hf, rfl⟩ := run
    have hp : s₁.procs = s.procs := by rw [OnlyMem.freeTable hf]
    refine plain (hl.same (c := []) (ht.ctx rfl) hcode hp rfl fun R hR => ?_) rfl
    exact ((Books.freeTable_ends hR).result hf).2.congr rfl rfl rfl rfl rfl
  | _ => cases hκ

/-- What a store in U-mode reaches is a frame of the table it goes through. -/
theorem Vm.Laid.user_access (h : Laid m kroot hs) (hx : (t, o) ∈ hs)
    (mapped : Sv39.access m t va acc .user false = some pa) :
    ∃ e, look va 2 m t = some e ∧ e &&& pteU ≠ 0 ∧ e &&& acc.bit ≠ 0 ∧ vpn va 2 = userL2Index ∧
      pteToPa e ∈ userFrames m t ∧ pa = pteToPa e + va % 4096 := by
  have hroot := h.roots _ hx
  obtain ⟨e, hl, hu, hb, hpa⟩ := Sv39.access_user (hroot.dirs_all h.kernel) mapped
  have hslot := user_slot hroot h.kernel hl hu
  exact ⟨e, hl, hu, hb, hslot, look_userFrame hslot hl, hpa⟩

theorem Books.user_store (h : Books E pool s as) (hd : .proc d ∈ as) (ht : d.userTable = some t)
    (mapped : Sv39.access s.phys.mem t va .store .user false = some pa) (b : UInt8) :
    Books E pool { s with phys := { s.phys with mem := poke s.phys.mem pa b } } as := by
  have hsp := h.owns.spaces
  have hx : (t, some (planOf E d)) ∈ as.flatMap (Asset.holdings E) := by
    refine List.mem_flatMap.mpr ⟨_, hd, ?_⟩
    rw [Asset.holdings, ht]
    exact List.mem_cons_self
  obtain ⟨e, _, _, _, _, hf, rfl⟩ := hsp.user_access hx mapped
  have hlt : va % 4096 < 4096 := Nat.mod_lt _ (by decide)
  obtain ⟨hsp', _⟩ := hsp.poke hx hf (Nat.le_add_right _ _) (Nat.add_lt_add_left hlt _) b
  refine h.pages hsp' ?_ rfl rfl
  have hpage : pteToPa e ∈ pool.pages := hsp.pool.mem
    (List.mem_append_right _ (List.mem_flatMap.mpr ⟨_, hx, userFrames_owned hf⟩))
  intro x hx'
  refine if_neg fun he => hx' _ hpage ?_
  omega

theorem Control.Holds.user (h : Holds .user lvl top s) (hm : Manned s)
    (hcode : s.hart.code = .umode :: k) :
    ∃ j p t, s.currentProc = some (j, p) ∧ p.userTable = some t ∧ s.hart.satp = p.pageTable := by
  obtain ⟨j, p, ht, _, _, _, _, hsat⟩ := h.place
  cases hut : p.userTable with
  | some t => exact ⟨j, p, t, Sys.currentProc_some ht.current ht.here, hut, hsat⟩
  | none =>
    have hk := hm j p ht.here hut
    rw [codeOf_hart ht.empty, hcode] at hk
    cases hk

theorem op_carried (E : Env) (op : Op T) : (op.code E).flatMap (carried E) = [] := by
  cases op <;> rfl

theorem irq_carried (E : Env) (irq : Irq) : (irq.code (T := T) E).flatMap (carried E) = [] :=
  (irq_light E irq).null (carried_null E (by decide))

/-- Code that comes in front of the hart's, or in its place if it carried nothing. -/
theorem Ledger.front (hl : Ledger E pool lost s) (h' : Hart T)
    (hc : h'.code.flatMap (carried E) = s.hart.code.flatMap (carried E)) :
    Ledger E pool lost { s with hart := h' } := by
  have hstock : stock E { s with hart := h' } = stock E s := by
    unfold stock gather codes
    rw [List.flatMap_cons, List.flatMap_cons, hc]
    rfl
  unfold Ledger
  rw [hstock]
  exact Books.congr hl rfl rfl rfl rfl rfl

theorem step_ledger (h : Holds S lvl top s) (hm : Manned s) (hr : Roomy s)
    (hl : Ledger E pool lost s) (move : Step E s s') :
    ∃ leak, Ledger E pool (leak ++ lost) s' ∧ Leaks s s' leak := by
  cases move with
  | exec junk code run => exact exec_ledger h hm hr hl code run
  | call op code =>
    refine ⟨[], hl.front _ ?_, .other code rfl⟩
    rw [code]
    show (op.code E ++ _).flatMap (carried E) = _
    rw [List.flatMap_append, op_carried, List.nil_append]
  | bootCall op _ code =>
    refine ⟨[], hl.front _ ?_, .other code rfl⟩
    rw [code]
    show (op.code E ++ _).flatMap (carried E) = _
    rw [List.flatMap_append, op_carried, List.nil_append]
  | leave code =>
    obtain ⟨_, _, rfl⟩ := h.leads code
    exact ⟨[], hl.front _ (by rw [code]; rfl), .other code rfl⟩
  | bootDone code =>
    obtain ⟨_, _, rfl⟩ := h.leads code
    exact ⟨[], hl.front _ (by rw [code]; rfl), .other code rfl⟩
  | interrupt irq on kernel =>
    refine ⟨[], hl.front _ ?_, .nil fun hex => ?_⟩
    · show (irq.code E ++ Instr.sretKernel :: s.hart.code).flatMap (carried E) = _
      rw [List.flatMap_append, irq_carried]
      rfl
    · obtain ⟨_, prog, he⟩ := hex
      have hin : Instr.sretKernel ∈ (Trap.fromKernel s (irq.code E)).hart.code :=
        List.mem_append_right _ List.mem_cons_self
      rw [he] at hin
      cases List.mem_singleton.mp hin
  | userInterrupt irq code =>
    obtain ⟨_, _, rfl⟩ := h.leads code
    refine ⟨[], hl.front _ ?_, .other code rfl⟩
    rw [code]
    show (irq.code E ++ _).flatMap (carried E) = _
    rw [List.flatMap_append, irq_carried]
    rfl
  | userAlu regs pc _ code => exact ⟨[], hl.front _ rfl, .other code rfl⟩
  | userStore va pa b code mapped =>
    obtain ⟨rfl, _, _⟩ := h.leads code
    obtain ⟨j, p, t, hcur, hu, hsat⟩ := h.user hm code
    obtain ⟨L, hslots, _⟩ := slots_change (Sys.currentProc_eq hcur).2 (Sys.currentProc_eq hcur).2
      (fun _ _ => rfl)
    have hin : Asset.proc p.toProcData ∈ lost.map .block ++ stock E s :=
      List.mem_append_right _ (List.mem_append_left _ (hslots.mem_iff.mpr List.mem_cons_self))
    have hsound := hl.roll.sound _ (List.mem_flatMap.mpr ⟨_, hin, List.mem_cons_self⟩)
    rw [hsat, hsound.page, hu] at mapped
    exact ⟨[], Books.user_store hl hin hu mapped b, .other code rfl⟩
  | userTrap cause stval _ code _ =>
    obtain ⟨_, _, rfl⟩ := h.leads code
    exact ⟨[], hl.front _ (by rw [code]; rfl), .other code rfl⟩

end Osmium
