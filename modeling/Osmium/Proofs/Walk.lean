import Osmium.Proofs.Tree

namespace Osmium.Vm
open Lib

variable {L : Layout} {pool : PagePool L.allocStart}

/-- What a walk may do to a table: hang new, empty tables into it. -/
structure Grown (l : Nat) (m m' : Mem) (t : Nat) (new : List Nat) : Prop where
  pages : ∀ leaf, (tree leaf (l + 1) m' t).Perm (new ++ tree leaf (l + 1) m t)
  writes : WritesIn m m' (new ++ tabs (l + 1) m t)
  looks : ∀ va, look va l m' t = look va l m t
  dirs : Dirs l m t → Dirs l m' t

/-- The same, seen from one entry of the root. A process root shares all its
other entries, so this is the form its walks take. -/
structure GrownAt (l : Nat) (m m' : Mem) (t i : Nat) (new : List Nat) : Prop where
  pages : ∀ leaf, (under leaf (l + 1) m' t i).Perm (new ++ under leaf (l + 1) m t i)
  others : ∀ j < 512, j ≠ i → entry m' t j = entry m t j
  writes : WritesIn m m' (t :: new ++ under (fun _ => []) (l + 1) m t i)
  looks : ∀ va, vpn va (l + 1) = i → look va (l + 1) m' t = look va (l + 1) m t
  dirs : (∀ c, child m t i = some c → Pointer (entry m t i) ∧ Dirs l m c) →
    ∀ c, child m' t i = some c → Pointer (entry m' t i) ∧ Dirs l m' c

/-- Pages taken by a walk that needs so many: all of them, or as many as there
were. -/
structure Took (need : Nat) (P P' : Phys) (new : List Nat) (r : Option Nat) : Prop where
  count : P'.freePages + new.length = P.freePages
  all : r ≠ none → new.length = need
  empty : r = none → P'.freePages = 0 ∧ new.length < need

/-- The walk has come to its entry, and the tables on the way are there. -/
structure Arrived (va l : Nat) (m m' : Mem) (t a : Nat) : Prop where
  slot : slot va l m' t = some a
  gaps : ∀ va', missing va' l m' t = min (missing va' l m t) (split va va' l)

def WalkSpec {L : Layout} (pool : PagePool L.allocStart) (va l : Nat) : Prop :=
  ∀ P P' t held rest r, Pool pool P held → held.Perm (tabs (l + 1) P.mem t ++ rest) →
    walkFrom va true l P t = .ok (r, P') →
    ∃ new, Pool pool P' (new ++ held) ∧ Grown l P.mem P'.mem t new ∧
      Took (missing va l P.mem t) P P' new r ∧ ∀ a, r = some a → Arrived va l P.mem P'.mem t a

/-- A page listed beside others in a duplicate-free list is none of them. -/
theorem not_mem_of_perm {held : List Nat} (hn : held.Nodup) (hp : held.Perm (xs ++ ys))
    (hy : q ∈ ys) : q ∉ xs := by
  have hd := List.nodup_append.mp (hp.nodup_iff.mp hn)
  exact fun hx => hd.2.2 q hx q hy rfl

theorem grownAt_refl (l : Nat) (m : Mem) (t i : Nat) : GrownAt l m m t i [] where
  pages _ := by simp
  others _ _ _ := rfl
  writes := WritesIn.refl _ _
  looks _ _ := rfl
  dirs h := h

/-- Walking through an existing entry leaves the entry's own table alone. -/
theorem grownAt_of_child (hi : i < 512) (hc : child m t i = some c)
    (hs : SameOn m m' t 4096) (hg : Grown l m m' c new) : GrownAt l m m' t i new where
  pages leaf := by
    have hc' := (child_congr (entry_congr hs hi)).trans hc
    rw [under_some hc, under_some hc']
    exact hg.pages leaf
  others j hj _ := entry_congr hs hj
  writes := by
    rw [under_some hc]
    exact hg.writes.mono (fun p hp => by simp at hp ⊢; exact Or.inr hp)
  looks va hva := by
    have hc' := (child_congr (entry_congr hs hi)).trans hc
    simp only [look, hva, hc, hc', Option.bind_some]
    exact hg.looks va
  dirs h d hd := by
    have he := entry_congr hs hi
    rw [(child_congr he).trans hc] at hd
    cases hd
    rw [he]
    obtain ⟨hf, hdir⟩ := h c hc
    exact ⟨hf, hg.dirs hdir⟩

/-- Hanging a fresh table into a free entry. `m₁` is memory after the new page
was cleared, `m₂` after the entry was written, `m'` after the walk below it. -/
theorem grownAt_of_fresh (hi : i < 512) (hv : ¬Valid (entry m t i))
    (hp : n % 4096 = 0) (hb : n < 2 ^ 32) (ht : t % 4096 = 0) (hne : n ≠ t)
    (hw : WritesIn m m₁ [n]) (hz : ∀ x, n ≤ x → x < n + 4096 → m₁ x = 0)
    (hm : m₂ = store64 m₁ (t + 8 * i) (paToPte n ||| pteV))
    (hs : SameOn m₂ m' t 4096) (hg : Grown l m₂ m' n new) :
    GrownAt l m m' t i (new ++ [n]) := by
  obtain ⟨hdv, hda, hdb, hdf⟩ := dir_pte hp hb
  have hst : SameOn m m₁ t 4096 :=
    hw.same (by simpa using hp) ht (by simpa using Ne.symm hne)
  have hzero : ∀ x, n ≤ x → x < n + 4096 → m₂ x = 0 := by
    intro x hl hu
    have hx := store64_writesIn m₁ t i (paToPte n ||| pteV) hi
    rw [hm, hx.same (by simpa using ht) hp (by simpa using hne) x hl hu]
    exact hz x hl hu
  have hentry : entry m' t i = paToPte n ||| pteV := by
    rw [entry_congr hs hi, hm]
    exact load64_store64 _ _ _ hdb
  have hchild : child m' t i = some n := by
    rw [child_valid (by rw [hentry]; exact hdv), hentry, hda]
  refine ⟨?_, ?_, ?_, ?_, ?_⟩
  · intro leaf
    rw [under_some hchild, under_none (child_invalid hv), List.append_nil]
    exact (hg.pages leaf).trans (by rw [tree_zero hzero])
  · intro j hj hji
    have hoff : entry m₂ t j = entry m₁ t j := by
      rw [hm]
      exact load64_store64_off _ _ _ _ (by unfold Apart; omega)
    rw [entry_congr hs hj, hoff, entry_congr hst hj]
  · have h1 : WritesIn m m₁ (t :: (new ++ [n]) ++ under (fun _ => []) (l + 1) m t i) :=
      hw.mono (by simp)
    have h2 : WritesIn m₁ m₂ (t :: (new ++ [n]) ++ under (fun _ => []) (l + 1) m t i) := by
      rw [hm]
      exact (store64_writesIn m₁ t i _ hi).mono (by simp)
    have h3 : WritesIn m₂ m' (t :: (new ++ [n]) ++ under (fun _ => []) (l + 1) m t i) := by
      refine hg.writes.mono ?_
      rw [tabs, tree_zero hzero]
      intro p hp
      exact List.mem_append_left _ (List.mem_cons_of_mem t hp)
    exact h1.trans (h2.trans h3)
  · intro va hva
    simp only [look, hva, hchild, child_invalid hv, Option.bind_some, Option.bind_none]
    rw [hg.looks va, look_zero hzero]
  · intro _ c hc
    rw [hchild] at hc
    cases hc
    rw [hentry]
    exact ⟨hdf, hg.dirs (dirs_zero hzero)⟩

/-- The walk has come to its entry, seen from one entry of the root. -/
structure ArrivedAt (va l : Nat) (m m' : Mem) (t i a : Nat) : Prop where
  slot : slot va (l + 1) m' t = some a
  gaps : ∀ va', vpn va' (l + 1) = i →
    missing va' (l + 1) m' t = min (missing va' (l + 1) m t) (split va va' l)

/-- One level of the walk, given what the levels below do. -/
theorem walk_grow_at (ih : WalkSpec pool va l) (hpool : Pool pool P held)
    (hi : vpn va (l + 1) = i)
    (hheld : held.Perm (t :: under (fun _ => []) (l + 1) P.mem t i ++ rest))
    (hwalk : walkFrom va true (l + 1) P t = .ok (r, P')) :
    ∃ new, Pool pool P' (new ++ held) ∧ GrownAt l P.mem P'.mem t i new ∧
      Took (missing va (l + 1) P.mem t) P P' new r ∧
      ∀ a, r = some a → ArrivedAt va l P.mem P'.mem t i a := by
  have hi' : i < 512 := hi ▸ vpn_lt va (l + 1)
  have htm : t ∈ held := hheld.mem_iff.mpr (by simp)
  simp only [walkFrom, hi] at hwalk
  rw [show load64 P.mem (t + 8 * i) = entry P.mem t i from rfl] at hwalk
  by_cases hv : Valid (entry P.mem t i)
  · -- the entry is there: everything happens below it
    rw [if_pos hv] at hwalk
    have hc := child_valid hv
    have hbelow : held.Perm (tabs (l + 1) P.mem (pteToPa (entry P.mem t i)) ++ (t :: rest)) := by
      refine hheld.trans ?_
      rw [under_some hc]
      exact List.perm_middle.symm
    obtain ⟨new, hp', hg, htk, hslot⟩ := ih P P' _ held _ r hpool hbelow hwalk
    have hsame : SameOn P.mem P'.mem t 4096 := by
      have hnd : (new ++ held).Nodup := hp'.nodup
      have hperm : (new ++ held).Perm
          (new ++ tabs (l + 1) P.mem (pteToPa (entry P.mem t i)) ++ (t :: rest)) := by
        rw [List.append_assoc]
        exact hbelow.append_left new
      refine hg.writes.same ?_ (hpool.page htm) (not_mem_of_perm hnd hperm (by simp))
      intro p hp
      exact hp'.page (hperm.mem_iff.mpr (List.mem_append_left _ hp))
    have hneed : missing va (l + 1) P.mem t = missing va l P.mem (pteToPa (entry P.mem t i)) := by
      simp only [missing, hi, hc, Option.elim_some]
    rw [hneed]
    refine ⟨new, hp', grownAt_of_child hi' hc hsame hg, htk, fun a ha => ⟨?_, fun va' hva' => ?_⟩⟩
    all_goals have hc' := (child_congr (entry_congr hsame hi')).trans hc
    · simp only [slot, hi, hc', Option.bind_some]
      exact (hslot a ha).slot
    · simp only [missing, hva', hc, hc', Option.elim_some]
      exact (hslot a ha).gaps va'
  · rw [if_neg hv] at hwalk
    simp only [Bool.not_true, Bool.false_eq_true, ↓reduceIte, bind_ok] at hwalk
    obtain ⟨⟨o, P₁⟩, ha, hwalk⟩ := hwalk
    have hneed : missing va (l + 1) P.mem t = l + 1 := by
      simp only [missing, hi, child_invalid hv, Option.elim_none]
    rw [hneed]
    cases o with
    | none =>
      obtain ⟨rfl, hfree⟩ := hpool.alloc_none ha
      simp only [Except.ok.injEq, Prod.mk.injEq] at hwalk
      obtain ⟨rfl, rfl⟩ := hwalk
      exact ⟨[], hpool, grownAt_refl .., ⟨by simp, by simp, fun _ => ⟨hfree, by simp⟩⟩, by simp⟩
    | some n =>
      obtain ⟨hp₁, hcount, hw, hz⟩ := hpool.alloc_some ha
      dsimp only at hwalk
      have hnp := hp₁.page (p := n) (by simp)
      have hnb := hp₁.bound (p := n) (by simp)
      have htp := hpool.page htm
      have hne : n ≠ t := fun he => (List.nodup_cons.mp hp₁.nodup).1 (he ▸ htm)
      have hp₂ : Pool pool { P₁ with mem := store64 P₁.mem (t + 8 * i) (paToPte n ||| pteV) }
          (n :: held) :=
        hp₁.write rfl rfl ((store64_writesIn P₁.mem t i _ hi').mono (by simp [htm]))
      have hzero : ∀ x, n ≤ x → x < n + 4096 →
          store64 P₁.mem (t + 8 * i) (paToPte n ||| pteV) x = 0 := by
        intro x hl hu
        rw [(store64_writesIn P₁.mem t i _ hi').same (by simpa using htp) hnp
          (by simpa using hne) x hl hu]
        exact hz x hl hu
      have htree : tabs (l + 1) (store64 P₁.mem (t + 8 * i) (paToPte n ||| pteV)) n = [n] :=
        tree_zero hzero
      obtain ⟨new, hp', hg, htk, hslot⟩ := ih _ P' n (n :: held) held r hp₂
        (by rw [htree]; simp) hwalk
      have hsame : SameOn (store64 P₁.mem (t + 8 * i) (paToPte n ||| pteV)) P'.mem t 4096 := by
        have hperm : (new ++ n :: held).Perm ((new ++ [n]) ++ held) := by simp
        refine hg.writes.same ?_ htp ?_
        · rw [htree]
          intro p hp
          exact hp'.page (hperm.mem_iff.mpr (List.mem_append_left _ hp))
        · rw [htree]
          exact not_mem_of_perm hp'.nodup hperm htm
      have hgrown : GrownAt l P.mem P'.mem t i (new ++ [n]) :=
        grownAt_of_fresh hi' hv hnp hnb htp hne hw hz rfl hsame hg
      dsimp only at htk hslot
      rw [missing_zero hzero] at htk
      obtain ⟨hdv, hda, hdb, _⟩ := dir_pte hnp hnb
      have hentry : entry P'.mem t i = paToPte n ||| pteV := by
        rw [entry_congr hsame hi']
        exact load64_store64 _ _ _ hdb
      have hchild : child P'.mem t i = some n := by
        rw [child_valid (by rw [hentry]; exact hdv), hentry, hda]
      refine ⟨new ++ [n], by simpa using hp', hgrown, ⟨?_, ?_, ?_⟩, fun a hra => ⟨?_, fun va' hva' => ?_⟩⟩
      · have := htk.count
        simp only [List.length_append, List.length_singleton]
        dsimp only at this
        omega
      · intro h
        have := htk.all h
        simp only [List.length_append, List.length_singleton]
        omega
      · intro h
        have := htk.empty h
        simp only [List.length_append, List.length_singleton]
        omega
      · simp only [slot, hi, hchild, Option.bind_some]
        exact (hslot a hra).slot
      · have hle := split_le va va' l
        have hgap := (hslot a hra).gaps va'
        rw [missing_zero hzero, Nat.min_eq_right hle] at hgap
        simp only [missing, hva', hchild, child_invalid hv, Option.elim_some, Option.elim_none, hgap]
        omega

/-- The walk with allocation, over all levels. The tables it reaches are held
and distinct, which is what keeps one entry's write from reaching another. -/
theorem walk_grow {L : Layout} (pool : PagePool L.allocStart) (va l : Nat) : WalkSpec pool va l := by
  induction l with
  | zero =>
    intro P P' t held rest r hpool _ hwalk
    simp only [walkFrom, Except.ok.injEq, Prod.mk.injEq] at hwalk
    obtain ⟨rfl, rfl⟩ := hwalk
    exact ⟨[], hpool, ⟨by simp, WritesIn.refl _ _, fun _ => rfl, id⟩,
      ⟨by simp, fun _ => rfl, by simp⟩, fun a ha => ⟨ha, fun _ => rfl⟩⟩
  | succ l ih =>
    intro P P' t held rest r hpool hheld hwalk
    have hi := vpn_lt va (l + 1)
    -- the subtrees behind the other entries belong to the frame of this level
    have hheld' : held.Perm (t :: under (fun _ => []) (l + 1) P.mem t (vpn va (l + 1)) ++
        (beside (fun _ => []) (l + 1) P.mem t (vpn va (l + 1)) ++ rest)) := by
      rw [← List.append_assoc]
      exact hheld.trans ((tree_pull _ (l + 1) P.mem t hi).append_right rest)
    obtain ⟨new, hp', hg, htk, hslot⟩ := walk_grow_at ih hpool rfl hheld' hwalk
    have hperm : (new ++ held).Perm
        (t :: new ++ under (fun _ => []) (l + 1) P.mem t (vpn va (l + 1)) ++
        (beside (fun _ => []) (l + 1) P.mem t (vpn va (l + 1)) ++ rest)) := by
      refine (hheld'.append_left new).trans ?_
      simp only [List.cons_append, List.append_assoc]
      exact List.perm_middle
    have hpage : ∀ p ∈ t :: new ++ under (fun _ => []) (l + 1) P.mem t (vpn va (l + 1)),
        p % 4096 = 0 := fun p hp => hp'.page (hperm.mem_iff.mpr (List.mem_append_left _ hp))
    have hother : ∀ j < 512, j ≠ vpn va (l + 1) → ∀ c, child P.mem t j = some c →
        ∀ q ∈ tabs (l + 1) P.mem c, SameOn P.mem P'.mem q 4096 := by
      intro j hj hne c hc q hq
      have hqr := beside_mem hj hne hc hq
      refine hg.writes.same hpage ?_
        (not_mem_of_perm hp'.nodup hperm (List.mem_append_left _ hqr))
      exact hp'.page (hperm.mem_iff.mpr
        (List.mem_append_right _ (List.mem_append_left _ hqr)))
    have hkeep : ∀ leaf, ∀ j < 512, j ≠ vpn va (l + 1) →
        under leaf (l + 1) P'.mem t j = under leaf (l + 1) P.mem t j := by
      intro leaf j hj hne
      have hce := child_congr (hg.others j hj hne)
      cases hc : child P.mem t j with
      | none => rw [under_none hc, under_none (hce.trans hc)]
      | some c =>
        rw [under_some hc, under_some (hce.trans hc)]
        exact tree_congr (hother j hj hne c hc)
    refine ⟨new, hp', ⟨?_, ?_, ?_, ?_⟩, htk, fun a ha => ⟨(hslot a ha).slot, fun va' => ?_⟩⟩
    · intro leaf
      rw [tree_succ, tree_succ]
      refine ((flatMap_range_change hi (hkeep leaf) (hg.pages leaf)).cons t).trans ?_
      exact List.perm_middle.symm
    · refine hg.writes.mono ?_
      intro p hp
      simp only [List.cons_append, List.mem_cons, List.mem_append] at hp ⊢
      rcases hp with rfl | hp | hp
      · exact Or.inr (root_mem ..)
      · exact Or.inl hp
      · right
        rw [tabs, tree_succ]
        exact List.mem_cons_of_mem _ (List.mem_flatMap.mpr ⟨_, List.mem_range.mpr hi, hp⟩)
    · intro va'
      by_cases he : vpn va' (l + 1) = vpn va (l + 1)
      · exact hg.looks va' he
      · have hce := child_congr (hg.others _ (vpn_lt va' (l + 1)) he)
        simp only [look, hce]
        cases hc : child P.mem t (vpn va' (l + 1)) with
        | none => rfl
        | some c => exact look_congr (hother _ (vpn_lt va' (l + 1)) he c hc)
    · intro hd j hj c hc
      by_cases he : j = vpn va (l + 1)
      · subst he
        exact hg.dirs (hd _ hi) c hc
      · have hentry := hg.others j hj he
        rw [child_congr hentry] at hc
        obtain ⟨hf, hdc⟩ := hd j hj c hc
        rw [hentry]
        exact ⟨hf, hdc.congr (hother j hj he c hc)⟩
    · by_cases he : vpn va' (l + 1) = vpn va (l + 1)
      · rw [split, if_pos he]
        exact (hslot a ha).gaps va' he
      · rw [split, if_neg he, Nat.min_eq_left (missing_le ..)]
        have hce := child_congr (hg.others _ (vpn_lt va' (l + 1)) he)
        simp only [missing, hce]
        cases hc : child P.mem t (vpn va' (l + 1)) with
        | none => rfl
        | some c => exact missing_congr (hother _ (vpn_lt va' (l + 1)) he c hc)

/-- A walk along existing tables allocates nothing. -/
theorem walk_hit (hs : slot va l P.mem t = some a) :
    walkFrom va true l P t = .ok (some a, P) := by
  induction l generalizing t with
  | zero => simpa [slot, walkFrom] using hs
  | succ l ih =>
    simp only [slot] at hs
    cases hc : child P.mem t (vpn va (l + 1)) with
    | none => simp [hc] at hs
    | some c =>
      simp only [hc, Option.bind_some] at hs
      obtain ⟨hv, rfl⟩ := child_some hc
      simp only [walkFrom]
      rw [show load64 P.mem (t + 8 * vpn va (l + 1)) = entry P.mem t (vpn va (l + 1)) from rfl,
        if_pos hv]
      exact ih hs

def WalkTotal {L : Layout} (pool : PagePool L.allocStart) (va l : Nat) : Prop :=
  ∀ P t held rest, Pool pool P held → held.Perm (tabs (l + 1) P.mem t ++ rest) →
    ∃ r, walkFrom va true l P t = .ok r

theorem walk_total_at (ih : WalkTotal pool va l) (hpool : Pool pool P held)
    (hi : vpn va (l + 1) = i)
    (hheld : held.Perm (t :: under (fun _ => []) (l + 1) P.mem t i ++ rest)) :
    ∃ r, walkFrom va true (l + 1) P t = .ok r := by
  have hi' : i < 512 := hi ▸ vpn_lt va (l + 1)
  have htm : t ∈ held := hheld.mem_iff.mpr (by simp)
  simp only [walkFrom, hi]
  rw [show load64 P.mem (t + 8 * i) = entry P.mem t i from rfl]
  by_cases hv : Valid (entry P.mem t i)
  · rw [if_pos hv]
    rw [under_some (child_valid hv)] at hheld
    exact ih P _ held (t :: rest) hpool (hheld.trans List.perm_middle.symm)
  · rw [if_neg hv]
    simp only [Bool.not_true, Bool.false_eq_true, ↓reduceIte]
    obtain ⟨⟨o, P₁⟩, ha⟩ := hpool.alloc_total
    rw [ha]
    cases o with
    | none => exact ⟨_, rfl⟩
    | some n =>
      obtain ⟨hp₁, _, _, hz⟩ := hpool.alloc_some ha
      have hnp := hp₁.page (p := n) (by simp)
      have hne : n ≠ t := fun he => (List.nodup_cons.mp hp₁.nodup).1 (he ▸ htm)
      have hwr := store64_writesIn P₁.mem t i (paToPte n ||| pteV) hi'
      have hp₂ : Pool pool { P₁ with mem := store64 P₁.mem (t + 8 * i) (paToPte n ||| pteV) }
          (n :: held) := hp₁.write rfl rfl (hwr.mono (by simp [htm]))
      have htree : tabs (l + 1) (store64 P₁.mem (t + 8 * i) (paToPte n ||| pteV)) n = [n] := by
        apply tree_zero
        intro x hl hu
        rw [hwr.same (by simpa using hpool.page htm) hnp (by simpa using hne) x hl hu]
        exact hz x hl hu
      exact ih _ n (n :: held) held hp₂ (by rw [htree]; simp)

/-- The walk itself never panics: without a page it gives up. -/
theorem walk_total {L : Layout} (pool : PagePool L.allocStart) (va l : Nat) : WalkTotal pool va l := by
  induction l with
  | zero => exact fun P t _ _ _ _ => ⟨_, rfl⟩
  | succ l ih =>
    intro P t held rest hpool hheld
    have hpull := (tree_pull (fun _ => []) (l + 1) P.mem t (vpn_lt va (l + 1))).append_right rest
    rw [List.append_assoc] at hpull
    exact walk_total_at ih hpool rfl (hheld.trans hpull)

end Osmium.Vm
