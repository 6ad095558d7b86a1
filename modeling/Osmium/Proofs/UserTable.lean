import Osmium.Proofs.KernelMap

namespace Osmium.Vm
open Lib

variable {L : Layout} {pool : PagePool L.allocStart}

/-- The frames mapped by a table of the given depth. -/
def frames : Nat → Mem → Nat → List Nat
  | 0, _, t => [t]
  | d + 1, m, t => (List.range 512).flatMap (fun i => (child m t i).elim [] (frames d m))

theorem frames_succ (d : Nat) (m : Mem) (t : Nat) : frames (d + 1) m t =
    (List.range 512).flatMap (fun i => (child m t i).elim [] (frames d m)) := rfl

theorem frames_mem (hi : i < 512) (hc : child m t i = some c) (hq : q ∈ frames d m c) :
    q ∈ frames (d + 1) m t := by
  rw [frames_succ]
  refine List.mem_flatMap.mpr ⟨i, List.mem_range.mpr hi, ?_⟩
  rw [hc]
  exact hq

/-- The private tables of a process root: the root and what its user slot holds. -/
def userTabs (m : Mem) (t : Nat) : List Nat := t :: under (fun _ => []) 2 m t userL2Index

/-- The frames behind the user slot. -/
def userFrames (m : Mem) (t : Nat) : List Nat := (child m t userL2Index).elim [] (frames 2 m)

/-- Every page a process table owns. -/
def owned (m : Mem) (t : Nat) : List Nat := t :: under (fun p => [p]) 2 m t userL2Index

theorem flatMap_append_perm (xs : List Nat) (f g : Nat → List Nat) :
    (xs.flatMap (fun i => f i ++ g i)).Perm (xs.flatMap f ++ xs.flatMap g) := by
  induction xs with
  | nil => simp
  | cons x xs ih =>
    simp only [List.flatMap_cons]
    refine (ih.append_left (f x ++ g x)).trans ?_
    simp only [List.append_assoc]
    refine List.Perm.append_left (f x) ?_
    rw [← List.append_assoc, ← List.append_assoc]
    exact List.perm_append_comm.append_right _

/-- Tables and frames make up a tree. -/
theorem tree_split (d : Nat) (m : Mem) (t : Nat) :
    (tree (fun p => [p]) d m t).Perm (tabs d m t ++ frames d m t) := by
  induction d generalizing t with
  | zero => exact List.Perm.refl _
  | succ d ih =>
    rw [tree_succ, tabs, tree_succ, List.cons_append]
    refine List.Perm.cons t ?_
    refine List.Perm.trans ?_ (flatMap_append_perm _ _ _)
    refine List.Perm.flatMap_left _ ?_
    intro i _
    cases hc : child m t i with
    | none => simp [under, hc]
    | some c =>
      simp only [under_some hc, Option.elim_some]
      exact ih c

theorem owned_split (m : Mem) (t : Nat) : (owned m t).Perm (userTabs m t ++ userFrames m t) := by
  unfold owned userTabs userFrames
  rw [List.cons_append]
  refine List.Perm.cons t ?_
  cases hc : child m t userL2Index with
  | none => simp [under, hc]
  | some c =>
    simp only [under_some hc, Option.elim_some]
    exact tree_split 2 m c

theorem look_frame (h : look va l m t = some e) : pteToPa e ∈ frames (l + 1) m t := by
  induction l generalizing t with
  | zero =>
    simp only [look] at h
    split at h
    · rename_i hv
      rw [← Option.some.inj h]
      exact frames_mem (vpn_lt va 0) (child_valid hv) (List.mem_singleton.mpr rfl)
    · cases h
  | succ l ih =>
    simp only [look] at h
    cases hc : child m t (vpn va (l + 1)) with
    | none => simp [hc] at h
    | some c =>
      simp only [hc, Option.bind_some] at h
      exact frames_mem (vpn_lt va (l + 1)) hc (ih h)

/-- A translation in the user slot reaches a frame of the process. -/
theorem look_userFrame (hu : vpn va 2 = userL2Index) (h : look va 2 m t = some e) :
    pteToPa e ∈ userFrames m t := by
  rw [look_succ, hu] at h
  unfold userFrames
  cases hc : child m t userL2Index with
  | none => simp [hc] at h
  | some c =>
    rw [hc, Option.bind_some] at h
    rw [Option.elim_some]
    exact look_frame (l := 1) h

theorem userTabs_owned (h : q ∈ userTabs m t) : q ∈ owned m t :=
  (owned_split m t).mem_iff.mpr (List.mem_append_left _ h)

theorem userFrames_owned (h : q ∈ userFrames m t) : q ∈ owned m t :=
  (owned_split m t).mem_iff.mpr (List.mem_append_right _ h)

theorem root_owned (m : Mem) (t : Nat) : t ∈ owned m t := by simp [owned]

theorem root_userTabs (m : Mem) (t : Nat) : t ∈ userTabs m t := by simp [userTabs]

/-- The contents of its own tables determine what hangs below the user slot. -/
theorem under_user_congr {m m' : Mem} (leaf : Nat → List Nat)
    (h : ∀ q ∈ userTabs m t, SameOn m m' q 4096) :
    under leaf 2 m' t userL2Index = under leaf 2 m t userL2Index := by
  have hce := child_congr (entry_congr (h t (root_userTabs m t)) (i := userL2Index) (by decide))
  cases hc : child m t userL2Index with
  | none => rw [under_none hc, under_none (hce.trans hc)]
  | some c =>
    rw [under_some hc, under_some (hce.trans hc)]
    apply tree_congr
    intro q hq
    exact h q (List.mem_cons_of_mem t (by rw [under_some hc]; exact hq))

theorem owned_congr {m m' : Mem} (h : ∀ q ∈ userTabs m t, SameOn m m' q 4096) :
    owned m' t = owned m t := congrArg (List.cons t) (under_user_congr _ h)

theorem userTabs_congr {m m' : Mem} (h : ∀ q ∈ userTabs m t, SameOn m m' q 4096) :
    userTabs m' t = userTabs m t := congrArg (List.cons t) (under_user_congr _ h)

theorem userLook_congr {m m' : Mem} (h : ∀ q ∈ userTabs m t, SameOn m m' q 4096)
    (hu : vpn va 2 = userL2Index) : look va 2 m' t = look va 2 m t := by
  have hce := child_congr (entry_congr (h t (root_userTabs m t)) (i := userL2Index) (by decide))
  rw [look_succ, look_succ, hu, hce]
  cases hc : child m t userL2Index with
  | none => simp only [Option.bind_none]
  | some c =>
    refine look_congr (l := 1) ?_
    intro q hq
    exact h q (List.mem_cons_of_mem t (by rw [under_some hc]; exact hq))

theorem userMissing_congr {m m' : Mem} (h : ∀ q ∈ userTabs m t, SameOn m m' q 4096)
    (hu : vpn va 2 = userL2Index) : missing va 2 m' t = missing va 2 m t := by
  have hce := child_congr (entry_congr (h t (root_userTabs m t)) (i := userL2Index) (by decide))
  rw [missing_succ, missing_succ, hu, hce]
  cases hc : child m t userL2Index with
  | none => simp only [Option.elim_none]
  | some c =>
    refine missing_congr (l := 1) ?_
    intro q hq
    exact h q (List.mem_cons_of_mem t (by rw [under_some hc]; exact hq))

/-- Freeing what hangs below a table, entry by entry. `below` frees one subtree. -/
theorem free_children (below : Phys → Nat → Except Panic Phys) (d : Nat)
    (hbelow : ∀ Q c more, Pool pool Q (tree (fun p => [p]) d Q.mem c ++ more) →
      ∃ Q', below Q c = .ok Q' ∧ Pool pool Q' more ∧
        WritesIn Q.mem Q'.mem (tree (fun p => [p]) d Q.mem c))
    (hpool : Pool pool P (tree (fun p => [p]) (d + 1) P.mem t ++ rest)) :
    ∃ P', (List.range 512).foldlM (fun Q i =>
        let e := load64 Q.mem (t + 8 * i)
        if Valid e then below Q (pteToPa e) else .ok Q) P = .ok P' ∧
      Pool pool P' (t :: rest) ∧
      WritesIn P.mem P'.mem ((List.range 512).flatMap (under (fun p => [p]) d P.mem t)) := by
  have hnd := hpool.nodup
  rw [tree_succ, List.cons_append] at hnd
  have hpage : ∀ q ∈ t :: (List.range 512).flatMap (under (fun p => [p]) d P.mem t),
      q % 4096 = 0 := fun q hq => hpool.page (List.mem_append_left _ hq)
  -- after `j` entries: their subtrees are back, the rest is as it was
  have hloop := loop_range_total (n := 512) (s := P)
    (f := fun Q i =>
        let e := load64 Q.mem (t + 8 * i)
        if Valid e then below Q (pteToPa e) else .ok Q)
    (fun j Q => Pool pool Q (t :: (List.range' j (512 - j)).flatMap
        (under (fun p => [p]) d P.mem t) ++ rest) ∧
      WritesIn P.mem Q.mem ((List.range j).flatMap (under (fun p => [p]) d P.mem t)))
    ⟨by rw [show List.range' 0 (512 - 0) = List.range 512 from List.range_eq_range'.symm]
        exact hpool, WritesIn.refl _ _⟩ ?_
  · obtain ⟨P', hr, hp', hw⟩ := hloop
    exact ⟨P', hr, by simpa using hp', hw⟩
  · rintro j Q hj ⟨hq, hw⟩
    have hsplit : List.range' j (512 - j) = j :: List.range' (j + 1) (512 - (j + 1)) := by
      rw [show 512 - j = (512 - (j + 1)) + 1 by omega, List.range'_succ]
    rw [hsplit, List.flatMap_cons] at hq
    have hnotin : ∀ q, q = t ∨ q ∈ under (fun p => [p]) d P.mem t j →
        q ∉ (List.range j).flatMap (under (fun p => [p]) d P.mem t) := by
      intro q hqm hfreed
      have hfull : ((List.range 512).flatMap (under (fun p => [p]) d P.mem t)).Perm
          ((List.range j).flatMap (under (fun p => [p]) d P.mem t) ++
            (under (fun p => [p]) d P.mem t j ++
              (List.range' (j + 1) (512 - (j + 1))).flatMap
                (under (fun p => [p]) d P.mem t))) := by
        rw [← List.flatMap_cons, ← hsplit, ← List.flatMap_append, range_append_range' (by omega)]
      have hnd' := ((hfull.append_right rest).cons t).nodup_iff.mp hnd
      simp only [List.nodup_cons, List.mem_append, not_or, List.append_assoc] at hnd'
      rcases hqm with rfl | hqm
      · exact hnd'.1.1 hfreed
      · exact (List.nodup_append.mp hnd'.2).2.2 q hfreed q
          (List.mem_append_left _ hqm) rfl
    have hfreedpage : ∀ q ∈ (List.range j).flatMap (under (fun p => [p]) d P.mem t),
        q % 4096 = 0 := by
      intro q hqm
      obtain ⟨i, hi, hqi⟩ := List.mem_flatMap.mp hqm
      have hi := List.mem_range.mp hi
      exact hpage q (List.mem_cons_of_mem t (List.mem_flatMap.mpr
        ⟨i, List.mem_range.mpr (by omega), hqi⟩))
    have hsame : SameOn P.mem Q.mem t 4096 :=
      hw.same hfreedpage (hpage t (by simp)) (hnotin t (Or.inl rfl))
    have he := entry_congr hsame hj
    dsimp only
    rw [show load64 Q.mem (t + 8 * j) = entry P.mem t j from he]
    have hgrow : ∀ q ∈ (List.range j).flatMap (under (fun p => [p]) d P.mem t),
        q ∈ (List.range (j + 1)).flatMap (under (fun p => [p]) d P.mem t) := by
      intro q hqm
      rw [List.range_succ, List.flatMap_append]
      exact List.mem_append_left _ hqm
    by_cases hv : Valid (entry P.mem t j)
    · rw [if_pos hv]
      have hc := child_valid hv
      rw [under_some hc] at hq hnotin
      have htree : tree (fun p => [p]) d Q.mem (pteToPa (entry P.mem t j)) =
          tree (fun p => [p]) d P.mem (pteToPa (entry P.mem t j)) := by
        apply tree_congr
        intro q hqm
        have hqt := tabs_mem_tree (fun p => [p]) hqm
        refine hw.same hfreedpage (hpage q (List.mem_cons_of_mem t (List.mem_flatMap.mpr
          ⟨j, List.mem_range.mpr hj, by rw [under_some hc]; exact hqt⟩))) ?_
        exact hnotin q (Or.inr hqt)
      obtain ⟨Q', hr, hq', hw'⟩ := hbelow Q (pteToPa (entry P.mem t j))
        (t :: ((List.range' (j + 1) (512 - (j + 1))).flatMap
          (under (fun p => [p]) d P.mem t)) ++ rest) (by
          rw [htree]
          refine hq.perm ?_
          simp only [List.cons_append, List.append_assoc]
          exact List.perm_middle.symm)
      refine ⟨Q', hr, hq', (hw.mono hgrow).trans (hw'.mono ?_)⟩
      rw [htree]
      intro q hqm
      rw [List.range_succ, List.flatMap_append]
      exact List.mem_append_right _ (by simpa [under_some hc] using hqm)
    · rw [if_neg hv]
      rw [under_none (child_invalid hv)] at hq
      exact ⟨Q, rfl, hq, hw.mono hgrow⟩

/-- A table goes back after everything below it. -/
theorem free_table (below : Phys → Nat → Except Panic Phys) (d : Nat)
    (hbelow : ∀ Q c more, Pool pool Q (tree (fun p => [p]) d Q.mem c ++ more) →
      ∃ Q', below Q c = .ok Q' ∧ Pool pool Q' more ∧
        WritesIn Q.mem Q'.mem (tree (fun p => [p]) d Q.mem c))
    (hpool : Pool pool P (tree (fun p => [p]) (d + 1) P.mem t ++ rest)) :
    ∃ P', ((List.range 512).foldlM (fun Q i =>
        let e := load64 Q.mem (t + 8 * i)
        if Valid e then below Q (pteToPa e) else .ok Q) P >>= fun Q => Kalloc.free L.allocStart Q t) = .ok P' ∧
      Pool pool P' rest ∧ WritesIn P.mem P'.mem (tree (fun p => [p]) (d + 1) P.mem t) := by
  obtain ⟨Q, hr, hq, hw⟩ := free_children below d hbelow hpool
  obtain ⟨P', hf, hp', _, hw'⟩ := hq.free
  refine ⟨P', ?_, hp', ?_⟩
  · rw [hr]
    exact hf
  · rw [tree_succ]
    exact (hw.mono (fun q hq => List.mem_cons_of_mem t hq)).trans (hw'.mono (by simp))

/-- Every page of a process table goes back to the allocator, and only those
pages are written. -/
theorem freeUserTable_spec (hpool : Pool pool P (owned P.mem t ++ rest)) :
    ∃ P', freeUserTable L P t = .ok P' ∧ Pool pool P' rest ∧
      WritesIn P.mem P'.mem (owned P.mem t) := by
  have hleaf : ∀ Q c more, Pool pool Q (tree (fun p => [p]) 1 Q.mem c ++ more) →
      ∃ Q', freeLeafTable L Q c = .ok Q' ∧ Pool pool Q' more ∧
        WritesIn Q.mem Q'.mem (tree (fun p => [p]) 1 Q.mem c) := by
    intro Q c more hq
    refine free_table (Kalloc.free L.allocStart) 0 ?_ hq
    intro R p more hr
    obtain ⟨R', hf, hr', _, hw⟩ := Pool.free hr
    exact ⟨R', hf, hr', hw⟩
  have hmid : ∀ Q c more, Pool pool Q (tree (fun p => [p]) 2 Q.mem c ++ more) →
      ∃ Q', freeMidTable L Q c = .ok Q' ∧ Pool pool Q' more ∧
        WritesIn Q.mem Q'.mem (tree (fun p => [p]) 2 Q.mem c) :=
    fun Q c more hq => free_table (freeLeafTable L) 1 hleaf hq
  unfold freeUserTable
  rw [show load64 P.mem (t + 8 * userL2Index) = entry P.mem t userL2Index from rfl]
  by_cases hv : Valid (entry P.mem t userL2Index)
  · have hc := child_valid hv
    unfold owned at hpool ⊢
    rw [under_some hc] at hpool ⊢
    obtain ⟨Q, hr, hq, hw⟩ := hmid P (pteToPa (entry P.mem t userL2Index)) (t :: rest)
      (hpool.perm (by rw [List.cons_append]; exact List.perm_middle.symm))
    obtain ⟨P', hf, hp', _, hw'⟩ := hq.free
    refine ⟨P', ?_, hp', (hw.mono (fun q hq => List.mem_cons_of_mem t hq)).trans
      (hw'.mono (by simp))⟩
    dsimp only
    rw [if_pos hv, hr]
    exact hf
  · unfold owned at hpool ⊢
    rw [under_none (child_invalid hv)] at hpool ⊢
    obtain ⟨P', hf, hp', _, hw'⟩ := hpool.free
    refine ⟨P', ?_, hp', hw'⟩
    dsimp only
    rw [if_neg hv]
    exact hf

end Osmium.Vm
