import Osmium.Proofs.Gather

namespace Osmium
open Lib Control Site Level

variable {T : Type} {s s' : Sys T}

theorem getcharCheck_emits (hc : s.hart.code = .getcharCheck r :: k) :
    Emits E (.getcharCheck r) k s (Console.getcharCheck s r k) := by
  rcases Console.getcharCheck_eq s r k with ⟨_, he⟩ | ⟨_, he⟩
  · rw [he]
    exact .goto [.release .input, .sleepMark .input, .sched, .popOff, .getcharLoop r] hc
      (by cases r <;> rfl)
  · rw [he]
    exact .of_code [.release .input, .popOff, .gotChar r _] rfl (fun _ => .refl _)
      (fun _ => ⟨rfl, rfl, rfl, rfl, rfl, rfl, fun _ => rfl⟩) (fun _ => ⟨rfl, rfl⟩)
      ⟨rfl, fun _ => rfl⟩ hc rfl (by cases r <;> rfl)

theorem pick_emits (hc : s.hart.code = [.pick]) (run : Proc.pick s = .ok s') :
    Emits E .pick [] s s' := by
  rcases Proc.pick_eq run with ⟨_, rfl⟩ | ⟨i, p, _, hp, hr, rfl⟩
  · exact .last _ hc rfl
  · exact .of_code (.switchTo p.pageTable :: .swtchTo i :: Proc.afterSwitch s) rfl
      (Move.setProc s i _ (fun q hq => .pick rfl (by rw [Option.some.inj (hq.symm.trans hp)]; exact hr)))
      (fun _ => ⟨rfl, rfl, rfl, rfl, rfl, rfl, fun j => data_setProc _ _ _ _ (fun _ => rfl)⟩)
      (fun _ => ⟨rfl, rfl⟩) ⟨rfl, fun j => ctx_setProc _ _ _ _ (fun _ => rfl)⟩ hc
      (List.append_nil _).symm rfl

theorem execCommit_emits (hc : s.hart.code = [.execCommit prog table])
    (run : Proc.execCommit s prog table = .ok s') : Emits E (.execCommit prog table) [] s s' := by
  unfold Proc.execCommit at run
  split at run
  · cases run
  · rename_i i p hcp
    simp only [bind_ok, Except.ok.injEq] at run
    obtain ⟨s₁, hd, rfl⟩ := run
    have hm := OnlyMem.dropFrame hd
    have hs := Serves.of_mem hm
    have hctx := sameCtx_of_place (samePlace_of_serves hs)
    refine .of_code (Proc.execRest table p) hs.root (fun j => ?_) (fun hn => absurd rfl hn)
      (fun _ => ⟨hs.sem, hs.chan⟩) ⟨hctx.sched, fun j => ?_⟩ hc (List.append_nil _).symm ?_
    · rw [hm]
      exact Move.setProc s i (Proc.takeSpace prog table) (fun _ _ => .keep rfl) j
    · exact (ctx_setProc s₁ i j (Proc.takeSpace prog table) (fun _ => rfl)).trans (hctx.procs j)
    · unfold Proc.execRest
      cases p.userTable <;> rfl

/-- What each piece of code leaves alone, by its kind. -/
theorem exec_emits (h : Holds S lvl top s) (hcode : s.hart.code = i :: k)
    (run : exec E junk s i k = .ok s') : Emits E i k s s' := by
  have hc := h.code
  rw [hcode] at hc
  cases hc with
  | pushOff | intrOn | intrOnLoose | intrOff | intrOffMoving | setIntena | sretKernel =>
    obtain rfl := Except.ok.inj run
    exact .hart _ hcode
  | popOff | popHeld =>
    simp only [exec, bind_ok, Except.ok.injEq] at run
    obtain ⟨hart, hp, rfl⟩ := run
    exact .hart _ hcode
  | acquire =>
    simp only [exec, bind_ok, Except.ok.injEq] at run
    obtain ⟨s₁, ha, rfl⟩ := run
    obtain ⟨_, rfl⟩ := acquire_eq ha
    exact .of_code [] rfl (fun _ => .refl _) (fun _ => ⟨rfl, rfl, rfl, rfl, rfl, rfl, fun _ => rfl⟩) (fun _ => ⟨rfl, rfl⟩)
      ⟨rfl, fun _ => rfl⟩ hcode rfl rfl
  | release =>
    simp only [exec, bind_ok, Except.ok.injEq] at run
    obtain ⟨s₁, ha, rfl⟩ := run
    obtain ⟨_, _, rfl⟩ := release_eq ha
    exact .of_code [] rfl (fun _ => .refl _) (fun _ => ⟨rfl, rfl, rfl, rfl, rfl, rfl, fun _ => rfl⟩) (fun _ => ⟨rfl, rfl⟩)
      ⟨rfl, fun _ => rfl⟩ hcode rfl rfl
  | sched =>
    obtain ⟨i, p, ht, _⟩ := h.place
    exact .sched hcode ht run
  | schedLast =>
    obtain ⟨i, p, ht, _⟩ := h.place
    exact .sched hcode ht run
  | yieldBody site =>
    simp only [exec, Proc.yieldBody] at run
    split at run
    · obtain rfl := Except.ok.inj run
      exact .goto [] hcode rfl
    · rename_i hcur
      simp only [bind_ok, Except.ok.injEq] at run
      obtain ⟨s₁, hs, rfl⟩ := run
      cases S with
      | thread =>
        obtain ⟨j, p, ht, hr, _⟩ := h.place
        exact .mark ht hr .yieldBody hs [.sched] hcode rfl
      | boot => rw [h.place.2.1] at hcur; cases hcur
      | _ => cases site
  | tickCheck =>
    simp only [exec, Proc.tickCheck] at run
    split at run
    · obtain rfl := Except.ok.inj run
      exact .goto [.popOff] hcode rfl
    · split at run
      · cases run
      · split at run
        · obtain rfl := Except.ok.inj run
          exact .goto [.popOff, .pushOff, .yieldBody, .popOff] hcode rfl
        · obtain rfl := Except.ok.inj run
          exact .goto [.popOff] hcode rfl
  | sleepMark =>
    simp only [exec, bind_ok, Except.ok.injEq] at run
    obtain ⟨s₁, hs, rfl⟩ := run
    obtain ⟨j, p, ht, hr, _⟩ := h.place
    exact .mark ht hr (.sleepMark _) hs [] hcode rfl
  | exitMark =>
    simp only [exec, bind_ok, Except.ok.injEq] at run
    obtain ⟨s₁, hs, rfl⟩ := run
    obtain ⟨j, p, ht, hr, _⟩ := h.place
    exact .mark ht hr .exitMark hs [] hcode rfl
  | wakeAll =>
    obtain rfl := Except.ok.inj run
    exact .wakeAll hcode
  | exit =>
    obtain rfl := Except.ok.inj run
    exact .last _ hcode rfl
  | join =>
    obtain rfl := Except.ok.inj run
    exact .goto [.pushOff, .joinCheck _] hcode rfl
  | joinCheck =>
    obtain rfl := Except.ok.inj run
    unfold Proc.joinCheck
    split
    · exact .goto [.sleepMark _, .sched, .popOff, .join _] hcode rfl
    · exact .goto [.popOff] hcode rfl
  | sleepTicks =>
    simp only [exec, Timer.sleepTicks] at run
    split at run
    · obtain rfl := Except.ok.inj run
      exact .goto [.tickWhile _] hcode rfl
    · cases run
  | tickWhile =>
    obtain rfl := Except.ok.inj run
    unfold Timer.tickWhile
    split
    · exact .goto [.pushOff, .tickIf _, .popOff, .tickWhile _] hcode rfl
    · exact .goto [] hcode rfl
  | tickIf =>
    obtain rfl := Except.ok.inj run
    unfold Timer.tickIf
    split
    · exact .goto [.sleepMark _, .sched] hcode rfl
    · exact .goto [] hcode rfl
  | onTick =>
    obtain rfl := Except.ok.inj run
    exact .of_code [] rfl (fun _ => .refl _) (fun _ => ⟨rfl, rfl, rfl, rfl, rfl, rfl, fun _ => rfl⟩) (fun _ => ⟨rfl, rfl⟩)
      ⟨rfl, fun _ => rfl⟩ hcode rfl rfl
  | ringPush =>
    obtain rfl := Except.ok.inj run
    unfold Console.ringPush
    dsimp only
    split <;>
    exact .of_code [] rfl (fun _ => .refl _) (fun _ => ⟨rfl, rfl, rfl, rfl, rfl, rfl, fun _ => rfl⟩) (fun _ => ⟨rfl, rfl⟩)
      ⟨rfl, fun _ => rfl⟩ hcode rfl rfl
  | getcharKernel | getcharUser =>
    obtain rfl := Except.ok.inj run
    exact .goto [.pushOff, .acquire .input, .getcharCheck _] hcode rfl
  | checkKernel | checkUser =>
    obtain rfl := Except.ok.inj run
    exact getcharCheck_emits hcode
  | gotKernel =>
    obtain rfl := Except.ok.inj run
    exact .goto [] hcode rfl
  | gotUser =>
    have hl : Emits E _ [] _ s' := .lands rfl (readRest_lands run) hcode
    exact { hl with memory := fun hn => absurd rfl hn }
  | wait =>
    obtain rfl := Except.ok.inj run
    exact .goto [.pushOff, .acquire _, .semCheck _] hcode rfl
  | semCheck =>
    rcases semCheck_eq run with ⟨_, rfl⟩ | ⟨_, s₁, s₂, hl, hs, rfl⟩
    · exact .of_code [.release _, .popOff] rfl (fun _ => .refl _)
        (fun _ => ⟨rfl, rfl, rfl, rfl, rfl, rfl, fun _ => rfl⟩) (fun hn => absurd rfl hn)
        ⟨rfl, fun _ => rfl⟩ hcode rfl rfl
    · obtain ⟨_, _, rfl⟩ := release_eq hl
      obtain ⟨j, p, hcur, hp, rfl⟩ := Proc.setState_eq hs
      obtain ⟨j', p', ht, hr, _⟩ := h.place
      obtain rfl := Option.some.inj (hcur.symm.trans ht.current)
      exact .of_code [.sched, .popOff, .wait _] rfl
        (Move.setProc s j _ (fun q hq => .give (.semCheck _) hcur (by
          rw [Option.some.inj (hq.symm.trans ht.here)]; exact hr)))
        (fun _ => ⟨rfl, rfl, rfl, rfl, rfl, rfl, fun j => data_setProc _ _ _ _ (fun _ => rfl)⟩)
        (fun hn => absurd rfl hn) ⟨rfl, fun j => ctx_setProc _ _ _ _ (fun _ => rfl)⟩ hcode rfl rfl
  | increment =>
    simp only [exec, bind_ok, Except.ok.injEq] at run
    obtain ⟨s₁, hi, rfl⟩ := run
    unfold Sync.increment at hi
    dsimp only at hi
    split at hi
    · obtain rfl := Except.ok.inj hi
      exact .of_code [] rfl (fun _ => .refl _) (fun _ => ⟨rfl, rfl, rfl, rfl, rfl, rfl, fun _ => rfl⟩)
        (fun hn => absurd rfl hn) ⟨rfl, fun _ => rfl⟩ hcode rfl rfl
    · cases hi
  | pushBack =>
    obtain rfl := Except.ok.inj run
    exact .of_code [] rfl (fun _ => .refl _) (fun _ => ⟨rfl, rfl, rfl, rfl, rfl, rfl, fun _ => rfl⟩)
        (fun hn => absurd rfl hn) ⟨rfl, fun _ => rfl⟩ hcode rfl rfl
  | popFront =>
    simp only [exec, bind_ok, Except.ok.injEq] at run
    obtain ⟨s₁, hi, rfl⟩ := run
    unfold Sync.popFront at hi
    dsimp only at hi
    split at hi
    · cases hi
    · obtain rfl := Except.ok.inj hi
      exact .of_code [] rfl (fun _ => .refl _) (fun _ => ⟨rfl, rfl, rfl, rfl, rfl, rfl, fun _ => rfl⟩)
        (fun hn => absurd rfl hn) ⟨rfl, fun _ => rfl⟩ hcode rfl rfl
  | body | boot | umode =>
    obtain rfl := Except.ok.inj run
    exact .last s.hart hcode (by rw [hcode]; rfl)
  | box =>
    simp only [exec, bind_ok, Except.ok.injEq] at run
    obtain ⟨s₁, hb, rfl⟩ := run
    exact .served rfl (.box hb) [] hcode rfl
  | unbox =>
    simp only [exec, bind_ok, Except.ok.injEq] at run
    obtain ⟨s₁, hb, rfl⟩ := run
    exact .served rfl (.unbox hb) [] hcode rfl
  | spawn =>
    simp only [exec, Proc.spawn, bind_ok, Except.ok.injEq] at run
    obtain ⟨⟨d, s₁⟩, hs, rfl⟩ := run
    exact .served rfl (.spawnWith hs) [.pushOff, .publish d, .popOff] hcode rfl
  | publish =>
    simp only [exec, bind_ok, Except.ok.injEq] at run
    obtain ⟨s₁, hp, rfl⟩ := run
    exact .publish hp hcode
  | loadImage | execImage =>
    simp only [exec, Proc.loadImage] at run
    split at run
    · cases run
    · simp only [bind_ok, Except.ok.injEq] at run
      obtain ⟨⟨t, P⟩, _, rfl⟩ := run
      exact .served rfl (.of_mem (.phys s P)) [.loadText _ t 0 _] hcode rfl
  | loadText | execText =>
    simp only [exec, Proc.loadText] at run
    split at run
    · simp only [bind_ok, Except.ok.injEq] at run
      obtain ⟨P, _, rfl⟩ := run
      exact .served rfl (.of_mem (.phys s P)) [.loadText _ _ _ _] hcode rfl
    · obtain rfl := Except.ok.inj run
      exact .goto [.loadStack _ _ _] hcode rfl
  | loadStack | execStack =>
    simp only [exec, Proc.loadStack, bind_ok, Except.ok.injEq] at run
    obtain ⟨⟨stack, P₁⟩, _, P, _, rfl⟩ := run
    first
      | exact .served rfl (.of_mem (.phys s P)) [.spawnUser _ _] hcode rfl
      | exact .served rfl (.of_mem (.phys s P)) [.execCommit _ _] hcode rfl
  | spawnUser =>
    simp only [exec, Proc.spawnUser, bind_ok, Except.ok.injEq] at run
    obtain ⟨⟨d, s₁⟩, hs, rfl⟩ := run
    exact .served rfl (.spawnWith hs) [.pushOff, .publish d, .popOff] hcode rfl
  | execCommit => exact execCommit_emits hcode run
  | switchMoving | switchPicked | switchBack =>
    simp only [exec, bind_ok, Except.ok.injEq] at run
    obtain ⟨s₁, hs, rfl⟩ := run
    obtain ⟨_, rfl⟩ := switchTo_eq hs
    exact .hart _ hcode
  | freeUserTable =>
    simp only [exec, bind_ok, Except.ok.injEq] at run
    obtain ⟨s₁, hf, rfl⟩ := run
    exact .served rfl (.of_mem (.freeTable hf)) [] hcode rfl
  | fork => exact .lands rfl (fork_lands run) hcode
  | kerneltrap => exact .lands rfl (kerneltrap_lands run) hcode
  | trapRet | sysRet | enterUser | userret =>
    obtain rfl := Except.ok.inj run
    exact .last _ hcode rfl
  | schedLoop | schedLoopLoose =>
    obtain rfl := Except.ok.inj run
    exact .last _ hcode rfl
  | reapFirst =>
    obtain ⟨hb, _⟩ := h.place
    exact .reap hb.contexts hcode run
  | reap =>
    obtain ⟨hb, _⟩ := h.place
    exact .reap hb.contexts hcode run
  | pick => exact pick_emits hcode run
  | swtchTo =>
    obtain ⟨hb, _⟩ := h.place
    exact .swtch hcode hb.back run
  | clearCurrent =>
    obtain rfl := Except.ok.inj run
    exact .of_code [] rfl (fun _ => .refl _) (fun _ => ⟨rfl, rfl, rfl, rfl, rfl, rfl, fun _ => rfl⟩) (fun _ => ⟨rfl, rfl⟩)
      ⟨rfl, fun _ => rfl⟩ hcode rfl rfl
  | wfi =>
    obtain rfl := Except.ok.inj run
    exact .goto [] hcode rfl
  | fetchEntry =>
    simp only [exec, Proc.fetchEntry] at run
    split at run
    · cases run
    · rename_i i p _
      obtain rfl := Except.ok.inj run
      exact .last _ hcode (by cases p.entry <;> rfl)
  | fetchUser =>
    simp only [exec, Proc.fetchUser] at run
    split at run
    · cases run
    · obtain rfl := Except.ok.inj run
      exact .goto [.popOff, .userEntry _ _ _] hcode rfl
  | fetchFork =>
    simp only [exec, Proc.fetchFork] at run
    split at run
    · cases run
    · split at run
      · cases run
      · obtain rfl := Except.ok.inj run
        exact .goto [.popOff, .intrOff, .userret _ _] hcode rfl
  | userEntry =>
    simp only [exec, Proc.userEntry] at run
    split at run
    · cases run
    · obtain rfl := Except.ok.inj run
      exact .goto [.enterUser _ _ _] hcode rfl

end Osmium
