import Osmium.Proofs.UserTable

namespace Osmium.Vm
open Lib

variable {L : Layout} {pool : PagePool L.allocStart}

/-- A process root: the kernel's entries everywhere but in the user slot, and
below the user slot a table of its own. -/
structure UserRoot (m : Mem) (kroot t : Nat) : Prop where
  shares : ∀ j < 512, j ≠ userL2Index → entry m t j = entry m kroot j
  dirs : ∀ c, child m t userL2Index = some c → Pointer (entry m t userL2Index) ∧ Dirs 1 m c

theorem UserRoot.congr {m m' : Mem} (h : UserRoot m kroot t)
    (hk : SameOn m m' kroot 4096) (hs : ∀ q ∈ userTabs m t, SameOn m m' q 4096) :
    UserRoot m' kroot t where
  shares j hj hne := by
    rw [entry_congr (hs t (root_userTabs m t)) hj, entry_congr hk hj]
    exact h.shares j hj hne
  dirs c hc := by
    have he := entry_congr (hs t (root_userTabs m t)) (i := userL2Index) (by decide)
    rw [child_congr he] at hc
    obtain ⟨hf, hd⟩ := h.dirs c hc
    rw [he]
    refine ⟨hf, hd.congr ?_⟩
    intro q hq
    exact hs q (List.mem_cons_of_mem t (by rw [under_some hc]; exact hq))

theorem samePath_page (ha : va < vaMax) (hb : va' < vaMax) :
    SamePath va 2 va' ↔ va' / 4096 = va / 4096 := vpn_inj hb ha

/-- What one more page does to a process table. `m₁` is memory once the frame
`dst` has its contents. -/
structure Added (m m₁ m' : Mem) (t va dst perm : Nat) : Prop where
  grows : ∀ q ∈ owned m t, q ∈ owned m' t
  frame : dst ∈ owned m' t
  writes : WritesIn m m' (owned m' t)
  others : ∀ j < 512, j ≠ userL2Index → entry m' t j = entry m t j
  looks : ∀ va' < vaMax, vpn va' 2 = userL2Index → look va' 2 m' t =
    if va' / 4096 = va / 4096 then some (paToPte dst ||| leafFlags perm) else look va' 2 m t
  gaps : ∀ va', vpn va' 2 = userL2Index →
    missing va' 2 m' t = min (missing va' 2 m t) (split va va' 1)
  content : SameOn m₁ m' dst 4096
  kept : ∀ q ∈ userFrames m t, SameOn m m' q 4096
  aligned : dst % 4096 = 0
  bound : dst < 2 ^ 32
  fresh : look va 2 m t = none
  low : va < vaMax
  slot : vpn va 2 = userL2Index
  dirs : (∀ c, child m t userL2Index = some c → Pointer (entry m t userL2Index) ∧ Dirs 1 m c) →
    ∀ c, child m' t userL2Index = some c → Pointer (entry m' t userL2Index) ∧ Dirs 1 m' c

/-- `map_pages` of a single page. -/
theorem mapPages_one (h : mapPages P t va pa pageSize perm = .ok P') :
    va % 4096 = 0 ∧ mapPage P t va pa perm = .ok P' := by
  unfold mapPages at h
  split at h
  · cases h
  · rename_i hal
    simp only [not_not] at hal
    split at h
    · cases h
    · split at h
      · cases h
      · rw [show pageSize / pageSize = 1 from rfl] at h
        simp only [List.range_one, List.foldlM_cons, List.foldlM_nil, Nat.zero_mul, Nat.add_zero,
          bind_ok, pure_ok] at h
        obtain ⟨Q, hQ, he⟩ := h
        rw [Except.ok.inj he] at hQ
        exact ⟨hal.1, hQ⟩

/-- A page just taken and filled is beside everything the process owns, and
the process's tables are where `map_pages` looks for them. -/
theorem page_taken (hpool : Pool pool P (owned P.mem t ++ held))
    (ha : allocPage P = .ok (dst, P₁)) (hfill : WritesIn P₁.mem m₁ [dst]) :
    Pool pool { P₁ with mem := m₁ } (dst :: (owned P.mem t ++ held)) ∧
      P₁.freePages + 1 = P.freePages ∧ WritesIn P.mem m₁ [dst] ∧
      (∀ q ∈ owned P.mem t, SameOn P.mem m₁ q 4096) ∧
      (dst :: (owned P.mem t ++ held)).Perm
        (t :: under (fun _ => []) 2 m₁ t userL2Index ++ (dst :: userFrames P.mem t ++ held)) := by
  obtain ⟨hp₁, hcount, hw₁, _⟩ := hpool.alloc_some (allocPage_some ha)
  have hw : WritesIn P.mem m₁ [dst] := hw₁.trans hfill
  have hkeep : ∀ q ∈ owned P.mem t, SameOn P.mem m₁ q 4096 := by
    intro q hq
    refine hw.same (by simpa using hp₁.page (p := dst) (by simp))
      (hpool.page (List.mem_append_left _ hq)) ?_
    intro he
    rw [List.mem_singleton.mp he] at hq
    exact (List.nodup_cons.mp hp₁.nodup).1 (List.mem_append_left _ hq)
  refine ⟨hp₁.write rfl rfl (hfill.mono (by simp)), hcount, hw, hkeep, ?_⟩
  rw [show t :: under (fun _ => []) 2 m₁ t userL2Index = userTabs m₁ t from rfl,
    userTabs_congr (fun q hq => hkeep q (userTabs_owned hq))]
  refine (((owned_split P.mem t).append_right held).cons dst).trans ?_
  simp only [List.append_assoc, List.cons_append]
  exact List.perm_middle.symm

/-- One more page of a process fails only for want of a page for it or for its
tables. -/
theorem add_page_ends (hpool : Pool pool P (owned P.mem t ++ held))
    (hu : vpn va 2 = userL2Index) (hva : va < vaMax) (hal : va % 4096 = 0)
    (hperm : perm &&& permMask ≠ 0) (hnone : look va 2 P.mem t = none) :
    Ends (fun e => e = .outOfPages ∧ P.freePages ≤ missing va 2 P.mem t) (allocPage P) (fun r =>
      ∀ m₁, WritesIn r.2.mem m₁ [r.1] →
        Ends (fun e => e = .outOfPages ∧ P.freePages ≤ missing va 2 P.mem t)
        (mapPages { r.2 with mem := m₁ } t va r.1 pageSize perm) (fun _ => True)) := by
  obtain ⟨⟨o, P₁⟩, ha⟩ := hpool.alloc_total
  cases o with
  | none =>
    obtain ⟨_, hf⟩ := hpool.alloc_none ha
    unfold allocPage
    rw [ha]
    exact .error ⟨rfl, by omega⟩
  | some dst =>
    have ha' : allocPage P = .ok (dst, P₁) := by
      unfold allocPage
      rw [ha]
      rfl
    refine .of_ok ha' (fun m₁ hfill => ?_)
    obtain ⟨hp₂, hcount, _, hkeep, hheld⟩ := page_taken hpool ha' hfill
    have hm := mapPage_ends_at dst perm hp₂ hu hheld hva
      ((userLook_congr (fun q hq => hkeep q (userTabs_owned hq)) hu).trans hnone)
    have hdp := hp₂.page (p := dst) (by simp)
    dsimp only
    unfold mapPages
    rw [if_neg (by simp [hal, hdp]), if_neg (by decide), if_neg hperm,
      show pageSize / pageSize = 1 from rfl]
    simp only [List.range_one, List.foldlM_cons, List.foldlM_nil, Nat.zero_mul, Nat.add_zero, pure_ok]
    refine .bind ⟨fun _ => trivial, fun he => ?_⟩ (fun _ _ _ => .ok trivial)
    obtain ⟨h1, h2⟩ := hm.failure he
    rw [userMissing_congr (fun q hq => hkeep q (userTabs_owned hq)) hu] at h2
    dsimp only at h2
    exact ⟨h1, by omega⟩

/-- Take a page, give it contents, hang it into a process table. -/
theorem add_page (hpool : Pool pool P (owned P.mem t ++ held))
    (ha : allocPage P = .ok (dst, P₁)) (hfill : WritesIn P₁.mem m₁ [dst])
    (hm : mapPages { P₁ with mem := m₁ } t va dst pageSize perm = .ok P')
    (hu : vpn va 2 = userL2Index) (hperm : perm < 256) :
    Pool pool P' (owned P'.mem t ++ held) ∧ Added P.mem m₁ P'.mem t va dst perm ∧
      P'.freePages + (1 + missing va 2 P.mem t) = P.freePages ∧
      (owned P'.mem t).length = (owned P.mem t).length + (1 + missing va 2 P.mem t) := by
  obtain ⟨hp₂, hcount, hw, hkeep, hheld⟩ := page_taken hpool ha hfill
  have hdp := hp₂.page (p := dst) (by simp)
  have hdb := hp₂.bound (p := dst) (by simp)
  have hdn : dst ∉ owned P.mem t ++ held := (List.nodup_cons.mp hp₂.nodup).1
  have hktabs : ∀ q ∈ userTabs P.mem t, SameOn P.mem m₁ q 4096 :=
    fun q hq => hkeep q (userTabs_owned hq)
  have howned : owned m₁ t = owned P.mem t := owned_congr hktabs
  have htabs : userTabs m₁ t = userTabs P.mem t := userTabs_congr hktabs
  obtain ⟨_, hone⟩ := mapPages_one hm
  obtain ⟨new, hp', hmap, hcnt, hfew, hva, hnone⟩ :=
    mapPage_at hp₂ hu hheld hdp (Nat.lt_trans hdb (by decide)) hperm hone
  obtain ⟨_, hpa, _, _⟩ := leaf_pte hdp (Nat.lt_trans hdb (by decide)) hperm
  have hown' : (owned P'.mem t).Perm (new ++ dst :: owned P.mem t) := by
    have hpg := hmap.pages (fun p => [p])
    rw [hpa] at hpg
    rw [← howned]
    unfold owned
    refine (hpg.cons t).trans ?_
    simp only [List.append_assoc, List.singleton_append]
    exact List.perm_middle.symm.trans ((List.Perm.swap _ _ _).append_left new)
  have hmem : ∀ q, q ∈ owned P'.mem t ↔ q ∈ new ∨ q = dst ∨ q ∈ owned P.mem t := by
    intro q
    rw [hown'.mem_iff]
    simp
  have hwm : WritesIn m₁ P'.mem (new ++ userTabs P.mem t) := by
    refine hmap.writes.mono ?_
    intro q hq
    rw [← htabs]
    rcases List.mem_append.mp hq with h | h
    · rcases List.mem_cons.mp h with rfl | h
      · exact List.mem_append_right _ (root_userTabs ..)
      · exact List.mem_append_left _ h
    · exact List.mem_append_right _ (List.mem_cons_of_mem t h)
  have hnd : (new ++ dst :: (owned P.mem t ++ held)).Nodup := hp'.nodup
  have hnewpage : ∀ q ∈ new ++ userTabs P.mem t, q % 4096 = 0 := by
    intro q hq
    refine hp'.page ?_
    simp only [List.mem_append, List.mem_cons] at hq ⊢
    exact hq.imp_right (fun h => Or.inr (Or.inl (userTabs_owned h)))
  refine ⟨hp'.perm ?_, ⟨?_, ?_, ?_, ?_, ?_, ?_, ?_, ?_, hdp, hdb, ?_, hva, hu, ?_⟩, ?_⟩
  · refine List.Perm.trans ?_ (hown'.symm.append_right held)
    simp
  · exact fun q hq => (hmem q).mpr (Or.inr (Or.inr hq))
  · exact (hmem dst).mpr (Or.inr (Or.inl rfl))
  · refine (hw.mono ?_).trans (hwm.mono ?_)
    · intro q hq
      exact (hmem q).mpr (Or.inr (Or.inl (List.mem_singleton.mp hq)))
    · intro q hq
      refine (hmem q).mpr ?_
      rcases List.mem_append.mp hq with h | h
      · exact Or.inl h
      · exact Or.inr (Or.inr (userTabs_owned h))
  · intro j hj hne
    rw [hmap.others j hj hne]
    exact entry_congr (hktabs t (root_userTabs ..)) hj
  · intro va' hva' hu'
    rw [hmap.looks va' hu', userLook_congr hktabs hu']
    simp only [samePath_page hva hva']
  · intro va' hu'
    rw [hmap.gaps va' hu', userMissing_congr hktabs hu']
  · refine hwm.same hnewpage hdp ?_
    intro hq
    rcases List.mem_append.mp hq with h | h
    · exact (List.nodup_append.mp hnd).2.2 dst h dst (by simp) rfl
    · exact hdn (List.mem_append_left _ (userTabs_owned h))
  · intro q hq
    have hqo := userFrames_owned hq
    refine (hkeep q hqo).trans (hwm.same hnewpage (hpool.page (List.mem_append_left _ hqo)) ?_)
    intro hx
    rcases List.mem_append.mp hx with h | h
    · exact (List.nodup_append.mp hnd).2.2 q h q (by simp [hqo]) rfl
    · have hs := (owned_split P.mem t).nodup_iff.mp (List.nodup_append.mp hpool.nodup).1
      exact (List.nodup_append.mp hs).2.2 q h q hq rfl
  · rw [← userLook_congr hktabs hu]
    exact hnone
  · intro hd
    refine hmap.dirs ?_
    intro c hc
    have he := entry_congr (hktabs t (root_userTabs ..)) (i := userL2Index) (by decide)
    rw [child_congr he] at hc
    obtain ⟨hf, hdc⟩ := hd c hc
    refine ⟨?_, hdc.congr ?_⟩
    · rw [he]
      exact hf
    intro q hq
    exact hktabs q (List.mem_cons_of_mem t (by rw [under_some hc]; exact hq))
  · have hl := hown'.length_eq
    simp only [List.length_append, List.length_cons] at hl
    dsimp only at hcnt hfew
    rw [userMissing_congr hktabs hu] at hfew
    exact ⟨by omega, by omega⟩

theorem UserRoot.add (h : UserRoot m kroot t) (ha : Added m m₁ m' t va dst perm)
    (hk : SameOn m m' kroot 4096) : UserRoot m' kroot t where
  shares j hj hne := by
    rw [ha.others j hj hne, h.shares j hj hne, entry_congr hk hj]
  dirs := ha.dirs h.dirs

theorem look_bare (hc : child m t userL2Index = none) (hu : vpn va 2 = userL2Index) :
    look va 2 m t = none := by
  rw [look_succ, hu, hc, Option.bind_none]

/-- Next to a mapped page fewer tables are missing. -/
theorem missing_near (hl : look va' 2 m t ≠ none) (h2 : vpn va 2 = vpn va' 2) :
    missing va 2 m t ≤ 1 ∧ (vpn va 1 = vpn va' 1 → missing va 2 m t = 0) := by
  rw [missing_succ, h2]
  rw [look_succ] at hl
  cases hc : child m t (vpn va' (1 + 1)) with
  | none =>
    rw [hc] at hl
    exact absurd rfl hl
  | some c =>
    rw [hc, Option.bind_some, look_succ] at hl
    refine ⟨missing_le va 1 m c, fun h1 => ?_⟩
    show missing va (0 + 1) m c = 0
    rw [missing_succ, h1]
    cases hc' : child m c (vpn va' (0 + 1)) with
    | none =>
      rw [hc'] at hl
      exact absurd rfl hl
    | some c' => rfl

/-- No table without a page in it. -/
def Tight (m : Mem) (t : Nat) : Prop :=
  ∀ va, vpn va 2 = userL2Index → missing va 2 m t = 0 →
    ∃ va' < vaMax, vpn va' 2 = userL2Index ∧ vpn va' 1 = vpn va 1 ∧ look va' 2 m t ≠ none

namespace Tight

theorem bare (hc : child m t userL2Index = none) : Tight m t := by
  intro va hu hm
  rw [missing_succ, hu, hc] at hm
  cases hm

theorem congr (h : Tight m t) (hs : ∀ q ∈ userTabs m t, SameOn m m' q 4096) : Tight m' t := by
  intro va hu hm
  rw [userMissing_congr hs hu] at hm
  obtain ⟨va', hlow, hu', h1, hl⟩ := h va hu hm
  refine ⟨va', hlow, hu', h1, ?_⟩
  rwa [userLook_congr hs hu']

theorem add (h : Tight m t) (ha : Added m m₁ m' t va dst perm) : Tight m' t := by
  intro v hu hm
  rw [ha.gaps v hu] at hm
  by_cases h1 : vpn v 1 = vpn va 1
  · refine ⟨va, ha.low, ha.slot, h1.symm, ?_⟩
    rw [ha.looks va ha.low ha.slot, if_pos rfl]
    exact Option.some_ne_none _
  · have hsplit : split va v 1 = 1 := if_neg h1
    obtain ⟨va', hlow, hu', h1', hl⟩ := h v hu (by omega)
    refine ⟨va', hlow, hu', h1', ?_⟩
    rw [ha.looks va' hlow hu']
    split
    · exact Option.some_ne_none _
    · exact hl

end Tight
end Osmium.Vm
