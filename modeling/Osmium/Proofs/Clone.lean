import Osmium.Proofs.UserSpace

namespace Osmium.Vm
open Lib

variable {L : Layout} {pool : PagePool L.allocStart}

/-- The loop of `make_user_table`, after `n` entries. -/
theorem copy_entries (hr : root % 4096 = 0) (hk : kroot % 4096 = 0) (hne : root ≠ kroot)
    (m : Mem) (hn : n ≤ 512) :
    WritesIn m ((List.range n).foldl
        (fun m i => store64 m (root + 8 * i) (load64 m (kroot + 8 * i))) m) [root] ∧
      ∀ j < n, entry ((List.range n).foldl
        (fun m i => store64 m (root + 8 * i) (load64 m (kroot + 8 * i))) m) root j =
        entry m kroot j := by
  induction n with
  | zero => exact ⟨WritesIn.refl _ _, by simp⟩
  | succ n ih =>
    obtain ⟨hw, he⟩ := ih (by omega)
    rw [List.range_succ, List.foldl_append]
    simp only [List.foldl_cons, List.foldl_nil]
    generalize (List.range n).foldl
      (fun m i => store64 m (root + 8 * i) (load64 m (kroot + 8 * i))) m = m' at hw he
    have hsame : SameOn m m' kroot 4096 :=
      hw.same (by simpa using hr) hk (by simpa using Ne.symm hne)
    refine ⟨hw.trans (store64_writesIn m' root n _ (by omega)), ?_⟩
    intro j hj
    by_cases hjn : j = n
    · subst hjn
      rw [← entry_congr hsame (by omega)]
      exact load64_store64 _ _ _ (load64_lt _ _)
    · rw [← he j (by omega)]
      exact load64_store64_off _ _ _ _ (by unfold Apart; omega)

/-- A fresh process root: one page, no user mapping. -/
theorem makeUserTable_spec (hpool : Pool pool P held) (hk : kroot ∈ held)
    (hslot : child P.mem kroot userL2Index = none) (h : makeUserTable P kroot = .ok (t, P')) :
    Pool pool P' (t :: held) ∧ owned P'.mem t = [t] ∧ UserRoot P'.mem kroot t ∧
      WritesIn P.mem P'.mem [t] ∧
      child P'.mem t userL2Index = none ∧ P'.freePages + 1 = P.freePages := by
  unfold makeUserTable at h
  rw [bind_ok] at h
  obtain ⟨⟨root, P₁⟩, ha, h⟩ := h
  dsimp only at h
  split at h
  · cases h
  · simp only [Except.ok.injEq, Prod.mk.injEq] at h
    obtain ⟨rfl, rfl⟩ := h
    obtain ⟨hp₁, hcount, hw₁, _⟩ := hpool.alloc_some (allocPage_some ha)
    have hrp := hp₁.page (p := root) (by simp)
    have hkp := hpool.page hk
    have hne : root ≠ kroot := by
      rintro rfl
      exact (List.nodup_cons.mp hp₁.nodup).1 hk
    obtain ⟨hw, he⟩ := copy_entries hrp hkp hne P₁.mem (Nat.le_refl 512)
    generalize (List.range 512).foldl
      (fun m i => store64 m (root + 8 * i) (load64 m (kroot + 8 * i))) P₁.mem = m' at hw he ⊢
    have hwr : WritesIn P.mem m' [root] := hw₁.trans hw
    have hkw : SameOn P₁.mem m' kroot 4096 :=
      hw.same (by simpa using hrp) hkp (by simpa using Ne.symm hne)
    have hkr : SameOn P.mem m' kroot 4096 :=
      hwr.same (by simpa using hrp) hkp (by simpa using Ne.symm hne)
    have hentry : ∀ j < 512, entry m' root j = entry m' kroot j :=
      fun j hj => (he j hj).trans (entry_congr hkw hj).symm
    have hnone : child m' root userL2Index = none := by
      rw [← hslot, ← child_congr (entry_congr hkr (by decide))]
      unfold child
      rw [hentry userL2Index (by decide)]
    refine ⟨hp₁.write rfl rfl (hw.mono (by simp)), ?_, ⟨fun j hj _ => hentry j hj, ?_⟩, hwr, hnone,
      hcount⟩
    · unfold owned
      rw [under_none hnone]
    · intro c hc
      rw [hnone] at hc
      cases hc

theorem makeUserTable_total (hpool : Pool pool P held) (hk : kroot ∈ held)
    (hslot : child P.mem kroot userL2Index = none) (hfree : 0 < P.freePages) :
    ∃ t P', makeUserTable P kroot = .ok (t, P') := by
  obtain ⟨root, P₁, ha⟩ := hpool.alloc_free hfree
  obtain ⟨hp₁, _, hw₁, _⟩ := hpool.alloc_some ha
  have hrp := hp₁.page (p := root) (by simp)
  have hkp := hpool.page hk
  have hne : root ≠ kroot := by
    rintro rfl
    exact (List.nodup_cons.mp hp₁.nodup).1 hk
  obtain ⟨hw, _⟩ := copy_entries hrp hkp hne P₁.mem (Nat.le_refl 512)
  have hkr := (hw₁.trans hw).same (by simpa using hrp) hkp (by simpa using Ne.symm hne)
  unfold makeUserTable allocPage
  rw [ha]
  simp only [ok_bind]
  rw [if_neg]
  · exact ⟨_, _, rfl⟩
  · intro hv
    have hc := child_congr (entry_congr hkr (i := userL2Index) (by decide))
    rw [hslot, child_valid hv] at hc
    cases hc

theorem makeUserTable_error (hpool : Pool pool P held) (hk : kroot ∈ held)
    (hslot : child P.mem kroot userL2Index = none) (h : makeUserTable P kroot = .error e) :
    e = .outOfPages := by
  obtain ⟨⟨o, P₁⟩, ha⟩ := hpool.alloc_total
  cases o with
  | none =>
    unfold makeUserTable allocPage at h
    rw [ha] at h
    exact (Except.error.inj h).symm
  | some p =>
    have hc := (hpool.alloc_some ha).2.1
    obtain ⟨t, P', ht⟩ := makeUserTable_total hpool hk hslot (by omega)
    rw [ht] at h
    cases h

/-- The address `clone_user_table` rebuilds from two indices. -/
theorem userAddr (hi : i < 512) (hj : j < 512) :
    (userL2Index <<< 30) ||| (i <<< 21) ||| (j <<< 12) = 2 ^ 30 + i * 2 ^ 21 + j * 2 ^ 12 := by
  rw [show userL2Index = 1 from rfl]
  have h1 : (1 <<< 30) ||| (i <<< 21) = 1 <<< 30 + i <<< 21 :=
    (Nat.shiftLeft_add_eq_or_of_lt (by rw [Nat.shiftLeft_eq]; omega) 1).symm
  have h2 : (1 <<< 30 + i <<< 21) ||| (j <<< 12) = 1 <<< 30 + i <<< 21 + j <<< 12 := by
    have he : 1 <<< 30 + i <<< 21 = (512 + i) <<< 21 := by
      simp only [Nat.shiftLeft_eq]
      omega
    rw [he]
    exact (Nat.shiftLeft_add_eq_or_of_lt (by rw [Nat.shiftLeft_eq]; omega) (512 + i)).symm
  rw [h1, h2, Nat.shiftLeft_eq, Nat.shiftLeft_eq, Nat.shiftLeft_eq, Nat.one_mul]

/-- In the user slot two indices name a page. -/
theorem userPage (hva : va < vaMax) (hu : vpn va 2 = userL2Index) (hi : i < 512) (hj : j < 512) :
    va / 4096 = (2 ^ 30 + i * 2 ^ 21 + j * 2 ^ 12) / 4096 ↔ vpn va 1 = i ∧ vpn va 0 = j := by
  have hm : vaMax = 274877906944 := rfl
  rw [show userL2Index = 1 from rfl, vpn_two] at hu
  rw [vpn_one, vpn_zero]
  omega

theorem userAddr_slot (hi : i < 512) (hj : j < 512) :
    vpn (2 ^ 30 + i * 2 ^ 21 + j * 2 ^ 12) 2 = userL2Index ∧
      2 ^ 30 + i * 2 ^ 21 + j * 2 ^ 12 < vaMax ∧
      (2 ^ 30 + i * 2 ^ 21 + j * 2 ^ 12) % 4096 = 0 := by
  have hm : vaMax = 274877906944 := rfl
  rw [vpn_two, show userL2Index = 1 from rfl]
  omega

/-- The child's page at `va` is the parent's at the time of the call: unmapped
alike, or a frame of its own with the same permissions and the same bytes. -/
def Copied (m₀ : Mem) (parent : Nat) (m : Mem) (child va : Nat) : Prop :=
  match look va 2 m₀ parent with
  | none => look va 2 m child = none
  | some e => ∃ f, f % 4096 = 0 ∧ f < 2 ^ 32 ∧
      look va 2 m child = some (paToPte f ||| leafFlags (e &&& permMask)) ∧
      ∀ x < 4096, m (f + x) = m₀ (pteToPa e + x)

/-- The clone in progress: the pages named by `done` are there, the rest of the
child is empty, and everything else in memory is as it was. -/
structure Cloned {L : Layout} (pool : PagePool L.allocStart) (m₀ : Mem) (kroot parent child : Nat) (held : List Nat)
    (done : Nat → Nat → Prop) (P : Phys) : Prop where
  pool : Pool pool P (owned P.mem child ++ held)
  root : UserRoot P.mem kroot child
  writes : WritesIn m₀ P.mem (owned P.mem child)
  copied : ∀ va < vaMax, vpn va 2 = userL2Index → done (vpn va 1) (vpn va 0) →
    Copied m₀ parent P.mem child va
  rest : ∀ va < vaMax, vpn va 2 = userL2Index → ¬done (vpn va 1) (vpn va 0) →
    look va 2 P.mem child = none
  tight : Tight P.mem child

namespace Cloned

variable {m₀ : Mem} {kroot parent child : Nat} {held : List Nat} {done done' : Nat → Nat → Prop}
variable {P P' : Phys}

theorem same (h : Cloned pool m₀ kroot parent child held done P) (hq : q ∈ held) :
    SameOn m₀ P.mem q 4096 := by
  refine h.writes.same (fun p hp => h.pool.page (List.mem_append_left _ hp))
    (h.pool.page (List.mem_append_right _ hq)) ?_
  intro hx
  exact (List.nodup_append.mp h.pool.nodup).2.2 q hx q hq rfl

theorem congr (h : Cloned pool m₀ kroot parent child held done P)
    (he : ∀ a < 512, ∀ b < 512, (done' a b ↔ done a b)) :
    Cloned pool m₀ kroot parent child held done' P :=
  { h with
    copied := fun va hva hu hd =>
      h.copied va hva hu ((he _ (vpn_lt va 1) _ (vpn_lt va 0)).mp hd)
    rest := fun va hva hu hd =>
      h.rest va hva hu (fun hx => hd ((he _ (vpn_lt va 1) _ (vpn_lt va 0)).mpr hx)) }

/-- Pages the parent does not map are done when the loop has passed them. -/
theorem skip (h : Cloned pool m₀ kroot parent child held done P)
    (hmono : ∀ a b, done a b → done' a b)
    (hnone : ∀ va < vaMax, vpn va 2 = userL2Index → done' (vpn va 1) (vpn va 0) →
      ¬done (vpn va 1) (vpn va 0) → look va 2 m₀ parent = none) :
    Cloned pool m₀ kroot parent child held done' P :=
  { h with
    copied := by
      intro va hva hu hd
      by_cases hdone : done (vpn va 1) (vpn va 0)
      · exact h.copied va hva hu hdone
      · unfold Copied
        rw [hnone va hva hu hd hdone]
        exact h.rest va hva hu hdone
    rest := fun va hva hu hd => h.rest va hva hu (fun hx => hd (hmono _ _ hx)) }

end Cloned

/-- What the parent maps at the page the two indices name. -/
theorem look_parent (hl1 : child m parent userL2Index = some l1) (hl0 : child m l1 i = some l0)
    (hu : vpn va 2 = userL2Index) (h1 : vpn va 1 = i) (h0 : vpn va 0 = j) :
    look va 2 m parent = if Valid (entry m l0 j) then some (entry m l0 j) else none := by
  simp only [look, hu, hl1, Option.bind_some, Nat.zero_add, h1, hl0, h0]

/-- One page of the parent. -/
theorem clonePage_spec (hinv : Cloned pool m₀ kroot parent t held done P)
    (hkroot : kroot ∈ held) (hown : ∀ q ∈ owned m₀ parent, q ∈ held)
    (hl1 : child m₀ parent userL2Index = some l1) (hl0 : child m₀ l1 i = some l0)
    (hi : i < 512) (hj : j < 512) (h : clonePage P t l0 i j = .ok P') :
    Cloned pool m₀ kroot parent t held (fun a b => done a b ∨ (a = i ∧ b = j)) P' ∧
      P'.freePages + (owned P'.mem t).length = P.freePages + (owned P.mem t).length ∧
      (owned P'.mem t).length ≤ (owned P.mem t).length +
        (if Valid (entry m₀ l0 j) then 3 else 0) := by
  have hl0own : l0 ∈ owned m₀ parent := by
    refine userTabs_owned (List.mem_cons_of_mem parent ?_)
    rw [under_some hl1]
    exact under_mem hi hl0 (root_mem ..)
  have he : entry P.mem l0 j = entry m₀ l0 j := entry_congr (hinv.same (hown l0 hl0own)) hj
  unfold clonePage at h
  rw [show load64 P.mem (l0 + 8 * j) = entry P.mem l0 j from rfl, he] at h
  dsimp only at h
  by_cases hv : Valid (entry m₀ l0 j)
  · rw [if_pos hv, bind_ok] at h
    obtain ⟨⟨dst, P₁⟩, ha, hm⟩ := h
    dsimp only at hm
    rw [userAddr hi hj] at hm
    obtain ⟨hslot, hlt, _⟩ := userAddr_slot hi hj
    have hperm : entry m₀ l0 j &&& permMask < 256 := by
      have : entry m₀ l0 j &&& permMask < 2 ^ 8 := Nat.and_lt_two_pow _ (by decide)
      exact this
    obtain ⟨hp', hadd, hcnt, hfew⟩ := add_page hinv.pool ha
      (copy_writesIn _ _ _ _ (Nat.le_refl _)) hm hslot hperm
    have hgap := missing_le (2 ^ 30 + i * 2 ^ 21 + j * 2 ^ 12) 2 P.mem t
    have hnd' := List.nodup_append.mp hp'.nodup
    have hkeep : ∀ q ∈ held, SameOn P.mem P'.mem q 4096 := by
      intro q hq
      refine hadd.writes.same (fun p hp => hp'.page (List.mem_append_left _ hp))
        (hp'.page (List.mem_append_right _ hq)) ?_
      intro hx
      exact hnd'.2.2 q hx q hq rfl
    refine ⟨⟨hp', hinv.root.add hadd (hkeep kroot hkroot),
      (hinv.writes.mono hadd.grows).trans hadd.writes, ?_, ?_, hinv.tight.add hadd⟩, by omega,
      by rw [if_pos hv]; omega⟩
    · intro va hva hu hd
      have hpage := userPage hva hu hi hj
      by_cases hthis : vpn va 1 = i ∧ vpn va 0 = j
      · -- the page just copied: its source frame is the parent's, still untouched
        have hlook := look_parent hl1 hl0 hu hthis.1 hthis.2
        rw [if_pos hv] at hlook
        have hsrc : pteToPa (entry m₀ l0 j) ∈ owned m₀ parent :=
          userFrames_owned (look_userFrame hu hlook)
        unfold Copied
        rw [hlook]
        refine ⟨dst, hadd.aligned, hadd.bound, ?_, ?_⟩
        · rw [hadd.looks va hva hu, if_pos (hpage.mpr hthis)]
        · intro x hx
          obtain ⟨hp₁, _, hw₁, _⟩ := hinv.pool.alloc_some (allocPage_some ha)
          have hsp := hp'.page (List.mem_append_right _ (hown _ hsrc))
          have hne : pteToPa (entry m₀ l0 j) ∉ [dst] := by
            intro hx
            have hd := hadd.frame
            rw [← List.mem_singleton.mp hx] at hd
            exact hnd'.2.2 _ hd _ (hown _ hsrc) rfl
          have hsame := (hinv.same (hown _ hsrc)).trans
            (hw₁.same (by simpa using hadd.aligned) hsp hne)
          rw [hadd.content (dst + x) (by omega) (by omega),
            copy_on _ _ _ _ hx]
          exact hsame _ (by omega) (by omega)
      · have hold := hd.resolve_right hthis
        have hlook : look va 2 P'.mem t = look va 2 P.mem t := by
          rw [hadd.looks va hva hu, if_neg (fun hx => hthis (hpage.mp hx))]
        have hc := hinv.copied va hva hu hold
        unfold Copied at hc ⊢
        cases hlp : look va 2 m₀ parent with
        | none =>
          rw [hlp] at hc
          exact hlook.trans hc
        | some e =>
          rw [hlp] at hc
          obtain ⟨f, hfa, hfb, hfl, hfc⟩ := hc
          refine ⟨f, hfa, hfb, hlook.trans hfl, ?_⟩
          have hpe : e &&& permMask < 256 := by
            have : e &&& permMask < 2 ^ 8 := Nat.and_lt_two_pow _ (by decide)
            exact this
          have hmem := look_userFrame hu hfl
          rw [(leaf_pte hfa (Nat.lt_trans hfb (by decide)) hpe).2.1] at hmem
          intro x hx
          rw [hadd.kept f hmem (f + x) (by omega) (by omega)]
          exact hfc x hx
    · intro va hva hu hd
      rw [not_or] at hd
      rw [hadd.looks va hva hu, if_neg (fun hx => hd.2 ((userPage hva hu hi hj).mp hx))]
      exact hinv.rest va hva hu hd.1
  · rw [if_neg hv] at h
    rw [← Except.ok.inj h]
    refine ⟨hinv.skip (fun a b hd => Or.inl hd) ?_, rfl, by simp [hv]⟩
    intro va _ hu hd hn
    obtain ⟨h1, h0⟩ := hd.resolve_left hn
    rw [look_parent hl1 hl0 hu h1 h0, if_neg hv]

theorem cloneTable_spec (hinv : Cloned pool m₀ kroot parent t held (fun a _ => a < i) P)
    (hkroot : kroot ∈ held) (hown : ∀ q ∈ owned m₀ parent, q ∈ held)
    (hl1 : child m₀ parent userL2Index = some l1) (hi : i < 512)
    (h : cloneTable P t l1 i = .ok P') :
    Cloned pool m₀ kroot parent t held (fun a _ => a < i + 1) P' := by
  have hl1own : l1 ∈ owned m₀ parent := by
    refine userTabs_owned (List.mem_cons_of_mem parent ?_)
    rw [under_some hl1]
    exact root_mem ..
  have he : entry P.mem l1 i = entry m₀ l1 i := entry_congr (hinv.same (hown l1 hl1own)) hi
  unfold cloneTable at h
  rw [show load64 P.mem (l1 + 8 * i) = entry P.mem l1 i from rfl, he] at h
  dsimp only at h
  by_cases hv : Valid (entry m₀ l1 i)
  · rw [if_pos hv] at h
    have hl0 := child_valid hv
    have hdone := loop_range
      (fun j Q => Cloned pool m₀ kroot parent t held (fun a b => a < i ∨ (a = i ∧ b < j)) Q)
      (hinv.congr (fun a _ b _ => by omega))
      (fun j Q Q' hj hq hr =>
        (clonePage_spec hq hkroot hown hl1 hl0 hi hj hr).1.congr
          (fun a _ b _ => by omega)) h
    exact hdone.congr (fun a _ b hb => by omega)
  · rw [if_neg hv] at h
    rw [← Except.ok.inj h]
    refine hinv.skip (fun a _ hd => by omega) ?_
    intro va _ hu hd hn
    have h1 : vpn va 1 = i := by omega
    simp only [look, hu, hl1, Option.bind_some, Nat.zero_add, h1, child_invalid hv,
      Option.bind_none]

/-- The child before any page is copied. -/
theorem clone_start (parent : Nat) (hpool : Pool pool P held) (hkroot : kroot ∈ held)
    (hslot : child P.mem kroot userL2Index = none) (h : makeUserTable P kroot = .ok (t, P')) :
    Cloned pool P.mem kroot parent t held (fun a _ => a < 0) P' ∧
      P'.freePages + 1 = P.freePages := by
  obtain ⟨hp', howned, hroot, hw, hempty, hcount⟩ := makeUserTable_spec hpool hkroot hslot h
  refine ⟨⟨?_, hroot, ?_, ?_, ?_, .bare hempty⟩, hcount⟩
  · rw [howned]
    exact hp'
  · rw [howned]
    exact hw
  · intro va _ _ hd
    exact absurd hd (Nat.not_lt_zero _)
  · intro va _ hu _
    exact look_bare hempty hu

/-- The clone is complete: every page of the parent, in frames of its own. -/
theorem cloneUserTable_spec (hpool : Pool pool P held) (hkroot : kroot ∈ held)
    (hslot : child P.mem kroot userL2Index = none) (hown : ∀ q ∈ owned P.mem parent, q ∈ held)
    (h : cloneUserTable P kroot parent = .ok (t, P')) :
    Cloned pool P.mem kroot parent t held (fun _ _ => True) P' := by
  unfold cloneUserTable at h
  rw [bind_ok] at h
  obtain ⟨⟨root, P₁⟩, hmake, h⟩ := h
  rw [bind_ok] at h
  obtain ⟨P₂, hloop, h⟩ := h
  simp only [Except.ok.injEq, Prod.mk.injEq] at h
  obtain ⟨rfl, rfl⟩ := h
  obtain ⟨hstart, _⟩ := clone_start parent hpool hkroot hslot hmake
  have he : entry P₁.mem parent userL2Index = entry P.mem parent userL2Index :=
    entry_congr (hstart.same (hown parent (root_owned ..))) (by decide)
  rw [show load64 P₁.mem (parent + 8 * userL2Index) = entry P₁.mem parent userL2Index from rfl,
    he] at hloop
  by_cases hv : Valid (entry P.mem parent userL2Index)
  · rw [if_pos hv] at hloop
    have hdone := loop_range
      (fun i Q => Cloned pool P.mem kroot parent root held (fun a _ => a < i) Q) hstart
      (fun i Q Q' hi hq hr => cloneTable_spec hq hkroot hown (child_valid hv) hi hr) hloop
    exact hdone.congr (fun a ha b _ => by simpa using ha)
  · rw [if_neg hv] at hloop
    rw [← Except.ok.inj hloop]
    refine hstart.skip (fun _ _ _ => trivial) ?_
    intro va _ hu _ _
    rw [look_succ, hu, child_invalid hv, Option.bind_none]

/-- How much of a table's contribution is still to come at entry `j`. -/
def later (f : Nat → List Nat) (j : Nat) : Nat := ((List.range' j (512 - j)).flatMap f).length

theorem later_step (f : Nat → List Nat) (hj : j < 512) :
    later f j = (f j).length + later f (j + 1) := by
  unfold later
  rw [show 512 - j = (512 - (j + 1)) + 1 by omega, List.range'_succ, List.flatMap_cons,
    List.length_append]

theorem later_start (f : Nat → List Nat) : later f 0 = ((List.range 512).flatMap f).length := by
  unfold later
  rw [show List.range' 0 (512 - 0) = List.range 512 from List.range_eq_range'.symm]

/-- Leaves a clone can copy: some permission is set. -/
def Permitted (m : Mem) (parent : Nat) : Prop :=
  ∀ va < vaMax, vpn va 2 = userL2Index → ∀ e, look va 2 m parent = some e → e &&& permMask ≠ 0

theorem clonePage_ends (hinv : Cloned pool m₀ kroot parent t held done P)
    (hown : ∀ q ∈ owned m₀ parent, q ∈ held) (hperm : Permitted m₀ parent)
    (hl1 : child m₀ parent userL2Index = some l1) (hl0 : child m₀ l1 i = some l0)
    (hi : i < 512) (hj : j < 512) (hnd : ¬done i j) :
    Ends (fun e => e = .outOfPages ∧ Valid (entry m₀ l0 j) ∧ P.freePages < 3)
      (clonePage P t l0 i j) (fun _ => True) := by
  have hl0own : l0 ∈ owned m₀ parent := by
    refine userTabs_owned (List.mem_cons_of_mem parent ?_)
    rw [under_some hl1]
    exact under_mem hi hl0 (root_mem ..)
  have he : entry P.mem l0 j = entry m₀ l0 j := entry_congr (hinv.same (hown l0 hl0own)) hj
  unfold clonePage
  rw [show load64 P.mem (l0 + 8 * j) = entry P.mem l0 j from rfl, he]
  dsimp only
  by_cases hv : Valid (entry m₀ l0 j)
  · obtain ⟨hslot, hlt, hal⟩ := userAddr_slot hi hj
    obtain ⟨h1, h0⟩ := (userPage hlt hslot hi hj).mp rfl
    have hlook := look_parent hl1 hl0 hslot h1 h0
    rw [if_pos hv] at hlook
    have hadd := add_page_ends hinv.pool hslot hlt hal
      (show (entry m₀ l0 j &&& permMask) &&& permMask ≠ 0 by
        rw [Nat.and_assoc, Nat.and_self]
        exact hperm _ hlt hslot _ hlook)
      (hinv.rest _ hlt hslot (by rw [h1, h0]; exact hnd))
    rw [if_pos hv, userAddr hi hj]
    have hgap := missing_le (2 ^ 30 + i * 2 ^ 21 + j * 2 ^ 12) 2 P.mem t
    refine .bind ⟨hadd.result, fun he => ?_⟩ ?_
    · obtain ⟨h1, h2⟩ := hadd.failure he
      exact ⟨h1, hv, by omega⟩
    · rintro ⟨dst, P₁⟩ _ hm
      refine ⟨fun _ => trivial, fun he => ?_⟩
      obtain ⟨h1, h2⟩ := (hm _ (copy_writesIn _ _ _ _ (Nat.le_refl _))).failure he
      exact ⟨h1, hv, by omega⟩
  · rw [if_neg hv]
    exact .ok trivial

/-- The frames behind one entry of a table. -/
def behind (d : Nat) (m : Mem) (t i : Nat) : List Nat := (child m t i).elim [] (frames d m)

theorem frames_behind (d : Nat) (m : Mem) (t : Nat) :
    (frames (d + 1) m t).length = later (behind d m t) 0 := by
  rw [later_start]
  rfl

theorem cloneTable_ends (hinv : Cloned pool m₀ kroot parent t held (fun a _ => a < i) P)
    (hkroot : kroot ∈ held) (hown : ∀ q ∈ owned m₀ parent, q ∈ held)
    (hperm : Permitted m₀ parent) (hl1 : child m₀ parent userL2Index = some l1) (hi : i < 512)
    (hfree : rich → 3 * (behind 1 m₀ l1 i).length + more ≤ P.freePages) :
    Ends (fun e => e = .outOfPages ∧ ¬rich) (cloneTable P t l1 i) (fun P' =>
      Cloned pool m₀ kroot parent t held (fun a _ => a < i + 1) P' ∧ (rich → more ≤ P'.freePages)) := by
  have hl1own : l1 ∈ owned m₀ parent := by
    refine userTabs_owned (List.mem_cons_of_mem parent ?_)
    rw [under_some hl1]
    exact root_mem ..
  have he : entry P.mem l1 i = entry m₀ l1 i := entry_congr (hinv.same (hown l1 hl1own)) hi
  by_cases hv : Valid (entry m₀ l1 i)
  · have hl0 := child_valid hv
    rw [behind, hl0, Option.elim_some, frames_behind] at hfree
    unfold cloneTable
    rw [show load64 P.mem (l1 + 8 * i) = entry P.mem l1 i from rfl, he]
    dsimp only
    rw [if_pos hv]
    -- what is left of this table is paid for, whatever the later tables need
    refine (Ends.loop_range
      (fun j Q => Cloned pool m₀ kroot parent t held (fun a b => a < i ∨ (a = i ∧ b < j)) Q ∧
        (rich → 3 * later (behind 0 m₀ (pteToPa (entry m₀ l1 i))) j + more ≤ Q.freePages))
      ⟨hinv.congr (fun a _ b _ => by omega), hfree⟩ ?_).mono ?_
    · rintro j Q hj ⟨hq, hf⟩
      rw [later_step _ hj] at hf
      have hpay : Valid (entry m₀ (pteToPa (entry m₀ l1 i)) j) →
          (behind 0 m₀ (pteToPa (entry m₀ l1 i)) j).length = 1 := by
        intro hx
        rw [behind, child_valid hx]
        rfl
      refine ⟨fun {Q'} hr => ?_, fun hr => ?_⟩
      rotate_left
      · obtain ⟨h1, hx, h3⟩ :=
          (clonePage_ends hq hown hperm hl1 hl0 hi hj (by omega)).failure hr
        refine ⟨h1, fun hrich => ?_⟩
        have := hpay hx
        have := hf hrich
        omega
      · obtain ⟨hq', hc, hf'⟩ := clonePage_spec hq hkroot hown hl1 hl0 hi hj hr
        refine ⟨hq'.congr (fun a _ b _ => by omega), fun hrich => ?_⟩
        have hf := hf hrich
        by_cases hx : Valid (entry m₀ (pteToPa (entry m₀ l1 i)) j)
        · have := hpay hx
          rw [if_pos hx] at hf'
          omega
        · rw [if_neg hx] at hf'
          omega
    · rintro P' ⟨hdone, hmore⟩
      exact ⟨hdone.congr (fun a _ b hb => by omega), fun hrich => by have := hmore hrich; omega⟩
  · have hskip : cloneTable P t l1 i = .ok P := by
      unfold cloneTable
      rw [show load64 P.mem (l1 + 8 * i) = entry P.mem l1 i from rfl, he]
      exact if_neg hv
    exact .of_ok hskip ⟨cloneTable_spec hinv hkroot hown hl1 hi hskip,
      fun hrich => by have := hfree hrich; omega⟩

/-- A copy fails only for want of pages; three for every frame of the parent, and
one for the root, are enough. -/
theorem cloneUserTable_ends (hpool : Pool pool P held) (hkroot : kroot ∈ held)
    (hslot : child P.mem kroot userL2Index = none) (hown : ∀ q ∈ owned P.mem parent, q ∈ held)
    (hperm : Permitted P.mem parent) :
    Ends (fun e => e = .outOfPages ∧ ¬1 + 3 * (userFrames P.mem parent).length ≤ P.freePages)
      (cloneUserTable P kroot parent) (fun _ => True) := by
  unfold cloneUserTable
  refine .bind ⟨fun _ => trivial, fun he => ?_⟩ ?_
  · have hz : P.freePages = 0 := by
      by_contra hn
      obtain ⟨t, P', ht⟩ := makeUserTable_total hpool hkroot hslot (Nat.pos_of_ne_zero hn)
      rw [ht] at he
      cases he
    exact ⟨makeUserTable_error hpool hkroot hslot he, by omega⟩
  rintro ⟨root, P₁⟩ hmake _
  obtain ⟨hstart, hcount⟩ := clone_start parent hpool hkroot hslot hmake
  have he : entry P₁.mem parent userL2Index = entry P.mem parent userL2Index :=
    entry_congr (hstart.same (hown parent (root_owned ..))) (by decide)
  dsimp only
  rw [show load64 P₁.mem (parent + 8 * userL2Index) = entry P₁.mem parent userL2Index from rfl, he]
  by_cases hv : Valid (entry P.mem parent userL2Index)
  · have hl1 := child_valid hv
    have hlen : (userFrames P.mem parent).length =
        later (behind 1 P.mem (pteToPa (entry P.mem parent userL2Index))) 0 := by
      rw [userFrames, hl1, Option.elim_some, frames_behind]
    rw [hlen, if_pos hv]
    refine (Ends.loop_range
      (fun i Q => Cloned pool P.mem kroot parent root held (fun a _ => a < i) Q ∧
        (1 + 3 * later (behind 1 P.mem (pteToPa (entry P.mem parent userL2Index))) 0 ≤ P.freePages →
          3 * later (behind 1 P.mem (pteToPa (entry P.mem parent userL2Index))) i ≤ Q.freePages))
      ⟨hstart, fun h => by omega⟩ ?_).bind (fun _ _ _ => .ok trivial)
    rintro i Q hi ⟨hq, hf⟩
    rw [later_step _ hi] at hf
    exact cloneTable_ends hq hkroot hown hperm hl1 hi (fun h => by have := hf h; omega)
  · rw [if_neg hv]
    exact .ok trivial

end Osmium.Vm
