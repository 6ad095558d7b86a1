import Osmium.Proofs.SchedState

namespace Osmium
open Lib Vm Control Syscall

variable {T : Type} {E : Env} {pool : PagePool E.allocStart} {s s' : Sys T}

/-- The software walk takes `va` to `pa` through a valid leaf with the given bits. -/
def MapsTo (P : Phys) (root va pa : Nat) (bits : List Nat) : Prop :=
  ∃ pte, translate P root va = .ok (some (pa, pte)) ∧ ∀ b ∈ bits, pte &&& b ≠ 0

theorem Vm.Usable.mapsTo (h : Usable P.mem t bits va) (hb : ∀ b ∈ bits, b = pteU ∨ b = pteW) :
    MapsTo P t va (reach P.mem t va) (pteR :: bits) := by
  obtain ⟨e, f, perm, hl, hleaf, hp, _, hr, hbits⟩ := h.leaf
  refine ⟨e, ?_, fun b hm => ?_⟩
  · have hfl := hl
    rw [hleaf.pte] at hfl
    rw [translate_eq P t va h.low, lookup_leaf hfl hleaf.aligned hleaf.word hp, reach, hl,
      Option.getD_some, hleaf.frame_eq hp, hleaf.pte]
  · have hflag : e &&& b = perm &&& b := by
      rcases List.mem_cons.mp hm with rfl | hm
      · exact hleaf.flag hp (by decide) (by decide)
      · rcases hb b hm with rfl | rfl <;> exact hleaf.flag hp (by decide) (by decide)
    rw [hflag]
    rcases List.mem_cons.mp hm with rfl | hm
    · exact hr
    · exact hbits b hm

theorem mapsTo_look (hva : va < vaMax) :
    (∃ pa, MapsTo P t va pa bits) ↔ ∃ e, look va 2 P.mem t = some e ∧ ∀ b ∈ bits, e &&& b ≠ 0 := by
  unfold MapsTo
  rw [translate_eq P t va hva, lookup]
  constructor
  · rintro ⟨pa, e, he, hb⟩
    obtain ⟨e', he', heq⟩ := Option.map_eq_some_iff.mp (Except.ok.inj he)
    obtain ⟨_, rfl⟩ := Prod.mk.inj heq
    exact ⟨e', he', hb⟩
  · rintro ⟨e, he, hb⟩
    exact ⟨_, e, by rw [he]; rfl, hb⟩

/-- The check behind every copy, in terms of the bytes of the range: a range of
no bytes still has the page of an unaligned pointer looked at. -/
theorem ready_iff (hstop : ptr + len ≤ vaMax) : Ready P.mem t bits ptr len ↔
    (∀ k < len, ∃ pa, MapsTo P t (ptr + k) pa bits) ∧
      (0 < len ∨ ptr % pageSize = 0 ∨ ∃ pa, MapsTo P t ptr pa bits) := by
  have hlow : ∀ v, v < ptr + len ∨ v % pageSize ≠ 0 ∧ v ≤ ptr → v < vaMax := by
    intro v hv
    have hmax : vaMax % pageSize = 0 := rfl
    rcases hv with hv | ⟨hv, hle⟩
    · omega
    · exact Nat.lt_of_le_of_ne (by omega) fun he => hv (he ▸ hmax)
  have hpage : ∀ v, look (v / pageSize * pageSize) 2 P.mem t = look v 2 P.mem t :=
    fun v => look_page (Nat.mul_div_cancel _ (by decide)) 2 P.mem t
  unfold Ready
  unfold pageSize at *
  refine ⟨fun ⟨_, hck⟩ => ⟨fun k hk => ?_, ?_⟩, fun ⟨hbytes, hfirst⟩ => ⟨hstop, fun n hn => ?_⟩⟩
  · rw [mapsTo_look (hlow _ (.inl (by omega))), ← hpage]
    have h := hck ((ptr + k) / 4096 - ptr / 4096) (by omega)
    rwa [show ptr / 4096 * 4096 + 4096 * ((ptr + k) / 4096 - ptr / 4096) = (ptr + k) / 4096 * 4096 by
      omega] at h
  · by_contra hn
    simp only [not_or] at hn
    obtain ⟨h0, h1, h2⟩ := hn
    rw [mapsTo_look (hlow ptr (.inr ⟨h1, Nat.le_refl _⟩)), ← hpage] at h2
    have h := hck 0 (by omega)
    rw [Nat.mul_zero, Nat.add_zero] at h
    exact h2 h
  · by_cases hk : ptr ≤ ptr / 4096 * 4096 + 4096 * n
    · have h := hbytes (ptr / 4096 * 4096 + 4096 * n - ptr) (by omega)
      rwa [Nat.add_sub_cancel' hk, mapsTo_look (hlow _ (.inl hn))] at h
    · obtain rfl : n = 0 := by omega
      have hmis : ptr % 4096 ≠ 0 := by omega
      rw [Nat.mul_zero, Nat.add_zero, hpage ptr, ← mapsTo_look (hlow ptr (.inr ⟨hmis, Nat.le_refl _⟩))]
      rcases hfirst with h0 | h1 | h2
      · exact hbytes 0 h0
      · exact absurd h1 hmis
      · exact h2

theorem MapsTo.low (h : MapsTo P t va pa bits) : va < vaMax := by
  obtain ⟨pte, hrun, _⟩ := h
  unfold Vm.translate Vm.walk at hrun
  split at hrun
  · assumption
  · cases hrun

theorem ready_bytes (hlen : 0 < len) : Ready P.mem t bits ptr len ↔
    ∀ k < len, ∃ pa, MapsTo P t (ptr + k) pa bits := by
  by_cases hstop : ptr + len ≤ vaMax
  · rw [ready_iff hstop]
    exact ⟨fun h => h.1, fun h => ⟨h, .inl hlen⟩⟩
  · refine ⟨fun h => absurd h.1 hstop, fun h => ?_⟩
    obtain ⟨pa, hlast⟩ := h (len - 1) (by omega)
    have := hlast.low
    omega

namespace Sane

/-- A process on the hart is in the position of a caller. -/
theorem serving (h : Sane E pool lost s) (ha : Acts s i p t) :
    ∃ R, (lost.map Asset.block ++ stock E s).Perm (.proc p.toProcData :: R) ∧
      Serving E pool s i p t R := by
  obtain ⟨L, hslots, _⟩ := slots_change (Sys.currentProc_eq ha.caller).2
    (Sys.currentProc_eq ha.caller).2 (fun _ _ => rfl)
  have hperm : (lost.map Asset.block ++ stock E s).Perm
      (.proc p.toProcData :: (lost.map .block ++ (L ++ gather (carried E) s))) := by
    unfold stock
    exact ((hslots.append_right _).append_left _).trans List.perm_middle
  refine ⟨_, hperm, .of_books (Books.perm h.ledger hperm) ha.caller ha.space ?_⟩
  exact h.satp_page ha.caller ha.stack ha.settled

/-- The stack takes copies either way. -/
theorem stack_usable (h : Sane E pool lost s) (hp : s.proc j = some p) (ht : p.userTable = some t)
    (hi : p.image = some prog) (hl : userStackTop - pageSize ≤ va) (hu : va < userStackTop) :
    Usable s.phys.mem t [pteU, pteW] va := by
  obtain ⟨hslot, hlow, e, f, he, hleaf⟩ := h.program_leaf hp ht hi (.inr ⟨hl, hu, rfl⟩)
  refine ⟨hlow, hslot, e, f, dataPerm, he, hleaf, by decide, by decide, by decide, ?_⟩
  intro b hb
  simp only [List.mem_cons, List.not_mem_nil, or_false] at hb
  rcases hb with rfl | rfl <;> decide

end Sane

/-- A copy on behalf of the process on the hart moves exactly the bytes behind
the range, through leaves that allow it, or touches nothing. -/
theorem user_copy_sound (h : Reachable E reserved s) (ha : Acts s i p t) (ptr len : Nat)
    (src : List UInt8) :
    Ends Lack (copyFromUser s ptr len) (fun r =>
      (∀ buf, r.result = some buf → ∃ loc : Nat → Nat,
        (∀ k < len, MapsTo s.phys s.hart.satp (ptr + k) (loc k) [pteR, pteU]) ∧
        buf.bytes = (List.range len).map (fun k => s.phys.mem (loc k)) ∧
        r.touched = (List.range len).map loc) ∧
      (r.result = none → r.touched = [] ∧ r.sys = s)) ∧
    ∃ r, copyToUser s ptr src = .ok r ∧
      (∀ n, r.result = some n → n = src.length ∧ ∃ loc : Nat → Nat,
        (∀ k < src.length, MapsTo s.phys s.hart.satp (ptr + k) (loc k) [pteR, pteU, pteW]) ∧
        (∀ k (hk : k < src.length), r.sys.phys.mem (loc k) = src[k]) ∧
        (∀ x, (∀ k < src.length, x ≠ loc k) → r.sys.phys.mem x = s.phys.mem x) ∧
        r.touched = (List.range src.length).map loc) ∧
      (r.result = none → r.touched = [] ∧ r.sys = s) := by
  obtain ⟨res, lost, _, hs⟩ := reachable_sane h
  obtain ⟨R, -, hserv⟩ := hs.serving ha
  have hcall := hserv.caller
  have hsat : s.hart.satp = t := hserv.satp
  refine ⟨⟨fun {r} hrun => ?_, (hserv.copyFromUser_ends ptr len).failure⟩, ?_⟩
  · rcases copyFromUser_spec hcall ptr len with ⟨_, hr⟩ | ⟨hready, ⟨e, _, hr⟩ | ⟨buf, s', _, hr⟩⟩
    · obtain rfl := Except.ok.inj (hr.symm.trans hrun)
      exact ⟨nofun, fun _ => ⟨rfl, rfl⟩⟩
    · cases hr.symm.trans hrun
    · obtain rfl := Except.ok.inj (hr.symm.trans hrun)
      refine ⟨fun b hb => ⟨fun k => reach s.phys.mem t (ptr + k), fun k hk => ?_, ?_, rfl⟩, nofun⟩
      · rw [hsat]
        exact (hcall.ready (by simp) (by simp) hready k hk).mapsTo (by simp)
      · obtain rfl := Option.some.inj hb
        rfl
  · rcases copyToUser_spec hcall ptr src with ⟨_, hr⟩ | ⟨hready, m', hr, _, _, hin, hout⟩
    · exact ⟨_, hr, nofun, fun _ => ⟨rfl, rfl⟩⟩
    · refine ⟨_, hr, fun n hn => ⟨(Option.some.inj hn).symm, fun k => reach s.phys.mem t (ptr + k),
        fun k hk => ?_, hin, hout, rfl⟩, nofun⟩
      rw [hsat]
      exact (hcall.ready (by simp) (by simp) hready k hk).mapsTo (by simp)

/-- Two bytes for the stack of the first process. -/
theorem user_copy_sound_stack : ∃ (s : Sys Nat) (r : Transfer Nat Nat) (loc : Nat → Nat),
    Reachable smallEnv none s ∧ copyToUser s (userStackTop - 8) [1, 2] = .ok r ∧ r.result = some 2 ∧
    MapsTo s.phys s.hart.satp (userStackTop - 7) (loc 1) [pteR, pteU, pteW] ∧
    r.sys.phys.mem (loc 1) = 2 := by
  obtain ⟨s, d, e, hu⟩ := userland Nat
  obtain ⟨t, u, ht, _⟩ := hu.roots
  obtain ⟨res, lost, _, hs⟩ := reachable_sane hu.reachable
  obtain ⟨_, r, hr, hsome, hnone⟩ :=
    user_copy_sound hu.reachable (hu.acts ht) (userStackTop - 8) 0 [1, 2]
  have hcall := hs.caller (hu.acts ht)
  have hready : Ready s.phys.mem t [pteU, pteW] (userStackTop - 8) 2 := by
    rw [ready_iff (by decide)]
    refine ⟨fun k hk => ?_, .inl (by decide)⟩
    have huse : Usable s.phys.mem t [pteU, pteW] (userStackTop - 8 + k) :=
      hs.stack_usable hu.proc_zero ht hu.first.image (by unfold userStackTop pageSize; omega)
        (by unfold userStackTop; omega)
    obtain ⟨pte, hpte, hb⟩ := huse.mapsTo (P := s.phys) (by simp)
    exact ⟨_, pte, hpte, fun b hm => hb b (List.mem_cons_of_mem _ hm)⟩
  have hres : r.result = some 2 := by
    rcases copyToUser_spec hcall (userStackTop - 8) [1, 2] with ⟨hn, _⟩ | ⟨_, m', hr', _⟩
    · exact absurd hready hn
    · obtain rfl := Except.ok.inj (hr'.symm.trans hr)
      rfl
  obtain ⟨_, loc, hmaps, hbytes, _⟩ := hsome 2 hres
  exact ⟨s, r, loc, hu.reachable, hr, hres, hmaps 1 (by decide), hbytes 1 (by decide)⟩

end Osmium
