import Osmium.Proofs.HeapList

namespace Osmium.Heap
open Lib

variable {L : Layout}

namespace Partition

variable {m : Mem} {h : Heap} {ts pre post : List Block} {b : Block}

theorem bounds (hp : Partition L m h ts) (ht : t ∈ ts) :
    0x80200000 < t.start ∧ t.stop ≤ 0x88000000 := by
  have hb := hp.tiles.bounds ht
  have hr := L.allocStart_range
  have h1 := L.base
  have h2 := L.text
  have h3 := L.user
  have h4 := L.rodata
  have h5 := L.data
  unfold Layout.allocStart Layout.heapStart heapSize at hr
  unfold Layout.heapStart heapSize at hb
  omega

/-- Blocks of the region lie apart, in the order of their addresses. -/
theorem around (hp : Partition L m h (pre ++ b :: post)) :
    (∀ t ∈ pre, t.stop ≤ b.start) ∧ ∀ t ∈ post, b.stop ≤ t.start := by
  have ho := List.pairwise_append.mp hp.tiles.ordered
  exact ⟨fun t ht => ho.2.2 t ht b (by simp), (List.pairwise_cons.mp ho.2.1).1⟩

theorem size (hp : Partition L m h ts) (ht : t ∈ ts) : 32 ≤ t.size := (hp.grain t ht).2.2

theorem spaced {us : List Block} (hp : Partition L m h ts) (hs : us.Sublist ts) :
    us.Pairwise (fun s t => s.start + 32 ≤ t.start) := by
  refine (hp.tiles.ordered.sublist hs).imp_of_mem ?_
  intro s t hm _ hle
  have := hp.size (hs.subset hm)
  unfold Tile.stop at hle
  omega

theorem fuel (hp : Partition L m h ts) : (frees ts).length < listFuel := by
  have hsum : ∀ {a z : Nat} {us : List Block}, Tiles a z us → (∀ t ∈ us, 32 ≤ t.size) →
      a + 32 * us.length ≤ z := by
    intro a z us hu hs
    induction us generalizing a with
    | nil =>
      have : a = z := hu
      simp [this]
    | cons t us ih =>
      obtain ⟨ha, ht⟩ := hu
      have h1 := ih ht (fun u hu => hs u (by simp [hu]))
      have h2 := hs t (by simp)
      unfold Tile.stop at h1
      rw [List.length_cons]
      omega
  have hle := hsum hp.tiles (fun t ht => hp.size ht)
  have hlen : (frees ts).length ≤ ts.length := List.length_filter_le ..
  unfold heapSize at hle
  unfold listFuel heapSize minBlock
  omega

theorem freeBytes_le (hp : Partition L m h ts) : h.freeBytes ≤ heapSize := by
  have hsum : ∀ {a z : Nat} {us : List Block}, Tiles a z us → a + bytes us = z := by
    intro a z us hu
    induction us generalizing a with
    | nil => exact hu
    | cons t us ih =>
      obtain ⟨ha, ht⟩ := hu
      have := ih ht
      unfold Tile.stop at this
      rw [bytes_cons]
      omega
  have hle : ∀ us : List Block, bytes (frees us) ≤ bytes us := by
    intro us
    induction us with
    | nil => exact Nat.le_refl _
    | cons t us ih =>
      cases hk : t.kind with
      | none =>
        rw [frees_cons_free hk, bytes_cons, bytes_cons]
        omega
      | some a =>
        rw [frees_cons_live hk, bytes_cons]
        omega
  have h1 := hsum hp.tiles
  have h2 := hle ts
  rw [hp.freeBytes]
  omega

end Partition

/-- The block has room for a header and, behind it and aligned, a payload. -/
def Wide (al need : Nat) (b : Block) : Prop := roundUp (b.start + 16) al + need ≤ b.stop

instance (al need : Nat) (b : Block) : Decidable (Wide al need b) :=
  inferInstanceAs (Decidable (_ ≤ _))

/-- What the search reports of a block it found. -/
def fitOf (ps : List Block) (al need : Nat) (b : Block) : Fit :=
  ⟨lastStart ps, b.start, b.stop, roundUp (b.start + 16) al, roundUp (b.start + 16) al + need⟩

/-- The search ends, without an overflow, at the first block that is wide
enough. -/
theorem firstFit_spec {m : Mem} {fs : List Block} (ps : List Block) (hseg : Seg m cur fs 0)
    (hfuel : fs.length < fuel) (hb : ∀ t ∈ fs, t.start ≠ 0 ∧ t.stop < 2 ^ 32) (hk : k ≤ 63)
    (hneed : 2 ^ k + need ≤ 2 ^ 63 + 64) :
    (firstFit m need (2 ^ k) fuel (lastStart ps) cur = .ok none ∧
      ∀ t ∈ fs, ¬Wide (2 ^ k) need t) ∨
    ∃ us b vs, fs = us ++ b :: vs ∧ (∀ t ∈ us, ¬Wide (2 ^ k) need t) ∧ Wide (2 ^ k) need b ∧
      firstFit m need (2 ^ k) fuel (lastStart ps) cur =
        .ok (some (fitOf (ps ++ us) (2 ^ k) need b)) := by
  induction fuel generalizing ps fs cur with
  | zero => omega
  | succ fuel ih =>
    cases fs with
    | nil =>
      obtain rfl : cur = 0 := hseg
      exact .inl ⟨rfl, fun t ht => by cases ht⟩
    | cons b fs =>
      obtain ⟨rfl, hsize, hrest⟩ := hseg
      obtain ⟨hne, hlt⟩ := hb b List.mem_cons_self
      have hstop : b.start + b.size = b.stop := rfl
      have hup := roundUp_lt (b.start + 16) (Nat.two_pow_pos k)
      have heq : firstFit m need (2 ^ k) (fuel + 1) (lastStart ps) b.start =
          if Wide (2 ^ k) need b then .ok (some (fitOf ps (2 ^ k) need b))
          else firstFit m need (2 ^ k) fuel (lastStart (ps ++ [b])) (load64 m (b.start + 8)) := by
        have halign : alignUp (b.start + header) (2 ^ k) = .ok (roundUp (b.start + 16) (2 ^ k)) :=
          alignUp_eq hk (by unfold header; omega)
        rw [firstFit, if_neg hne, hsize, hstop, checked_ok (by omega), ok_bind, halign, ok_bind,
          checked_ok (by omega), ok_bind, lastStart_concat]
        rfl
      rw [heq]
      by_cases hw : Wide (2 ^ k) need b
      · refine .inr ⟨[], b, fs, rfl, (fun t ht => by cases ht), hw, ?_⟩
        rw [if_pos hw, List.append_nil]
      · rw [if_neg hw]
        rcases ih (ps ++ [b]) hrest (by simpa using hfuel)
          (fun t ht => hb t (List.mem_cons_of_mem _ ht)) with ⟨hrun, hnone⟩ | ⟨us, c, vs, rfl, hus, hc, hrun⟩
        · exact .inl ⟨hrun, List.forall_mem_cons.mpr ⟨hw, hnone⟩⟩
        · refine .inr ⟨b :: us, c, vs, rfl, List.forall_mem_cons.mpr ⟨hw, hus⟩, hc, ?_⟩
          rw [hrun, List.append_assoc]
          rfl

/-- Where a block found on the list sits among all blocks. -/
theorem frees_split {ts us vs : List Block} {b : Block} (h : frees ts = us ++ b :: vs) :
    ∃ pre post, ts = pre ++ b :: post ∧ frees pre = us ∧ frees post = vs ∧ b.kind = none := by
  unfold frees at h
  obtain ⟨l₁, l₂, rfl, h1, h2⟩ := List.filter_eq_append_iff.mp h
  obtain ⟨l₃, l₄, rfl, hn, hb, h4⟩ := List.filter_eq_cons_iff.mp h2
  refine ⟨l₁ ++ l₃, l₄, by simp, ?_, h4, by simpa [isFree] using hb⟩
  rw [frees_append, show frees l₁ = us from h1]
  have : frees l₃ = [] := List.filter_eq_nil_iff.mpr hn
  rw [this, List.append_nil]

/-- The free remainder of `[lo, hi)`, when it is large enough to be a block. -/
def remainder (lo hi : Nat) : List Block :=
  if minBlock ≤ hi - lo then [⟨lo, hi - lo, none⟩] else []

theorem remainder_mem (ht : t ∈ remainder lo hi) : t.start = lo ∧ lo + 32 ≤ hi := by
  unfold remainder minBlock at ht
  split_ifs at ht
  · rw [List.mem_singleton.mp ht]
    exact ⟨rfl, by omega⟩
  · cases ht

/-- What `carve` leaves of the block it cuts. -/
structure Cut (b : Block) (f : Fit) (n : Nat) (front : List Block) (live : Block)
    (back : List Block) : Prop where
  front : front = remainder b.start (f.userStart - 16)
  back : back = remainder f.userEnd b.stop
  kind : live.kind = some ⟨f.userStart, n⟩
  start : live.start = if minBlock ≤ f.userStart - 16 - b.start then f.userStart - 16 else b.start
  stop : live.stop = if minBlock ≤ b.stop - f.userEnd then f.userEnd else b.stop

/-- The block found is wide enough, and everything is a multiple of 16. -/
structure Roomy (b : Block) (f : Fit) (n : Nat) : Prop where
  start : f.userStart % 16 = 0
  stop : f.userEnd % 16 = 0
  front : b.start + 16 ≤ f.userStart
  payload : f.userStart + 16 ≤ f.userEnd
  size : f.userStart + n ≤ f.userEnd
  back : f.userEnd ≤ b.stop
  close : f.userEnd ≤ f.userStart + n + 16

namespace Cut

variable {b live : Block} {f : Fit} {n : Nat} {front back : List Block}

theorem tiles (hc : Cut b f n front live back) (hr : Roomy b f n) :
    Tiles b.start b.stop (front ++ live :: back) := by
  obtain ⟨rfl, rfl, _, hs, he⟩ := hc
  obtain ⟨_, _, h1, h2, _, h3⟩ := hr
  unfold remainder minBlock at *
  unfold Tile.stop at *
  split_ifs at hs he ⊢ <;> simp [Tiles, Tile.stop] <;> omega

theorem grain (hc : Cut b f n front live back) (hr : Roomy b f n) (hs : b.start % 16 = 0)
    (hn : b.size % 16 = 0) (ht : t ∈ front ++ live :: back) :
    t.start % 16 = 0 ∧ t.size % 16 = 0 ∧ 32 ≤ t.size := by
  obtain ⟨rfl, rfl, _, hls, hle⟩ := hc
  obtain ⟨h4, h5, h1, h2, _, h3⟩ := hr
  unfold remainder minBlock at *
  unfold Tile.stop at *
  rcases List.mem_append.mp ht with ht | ht
  · split_ifs at ht with hg
    · rw [List.mem_singleton.mp ht]
      dsimp only
      omega
    · cases ht
  · rcases List.mem_cons.mp ht with rfl | ht
    · split_ifs at hls hle <;> omega
    · split_ifs at ht with hg
      · rw [List.mem_singleton.mp ht]
        dsimp only
        omega
      · cases ht

theorem frees (hc : Cut b f n front live back) : Heap.frees (front ++ live :: back) =
    remainder b.start (f.userStart - 16) ++ remainder f.userEnd b.stop := by
  have hrem : ∀ lo hi, Heap.frees (remainder lo hi) = remainder lo hi := by
    intro lo hi
    unfold remainder
    split_ifs <;> rfl
  rw [frees_append, frees_cons_live hc.kind, hc.front, hc.back, hrem, hrem]

theorem lives (hc : Cut b f n front live back) :
    Heap.lives (front ++ live :: back) = [⟨f.userStart, n⟩] := by
  have hrem : ∀ lo hi, Heap.lives (remainder lo hi) = [] := by
    intro lo hi
    unfold remainder
    split_ifs <;> rfl
  rw [lives_append, hc.front, hc.back, hrem, List.nil_append]
  unfold Heap.lives
  rw [List.filterMap_cons_some hc.kind]
  exact congrArg (List.cons _) (hrem ..)

theorem bytes (hc : Cut b f n front live back) (hr : Roomy b f n) :
    Heap.bytes (remainder b.start (f.userStart - 16) ++ remainder f.userEnd b.stop) + live.size =
      b.size := by
  obtain ⟨rfl, rfl, _, hls, hle⟩ := hc
  obtain ⟨h4, h5, h1, h2, _, h3⟩ := hr
  unfold remainder minBlock Heap.bytes at *
  unfold Tile.stop at *
  split_ifs at hls hle ⊢ <;> simp <;> omega

/-- Nothing but the cut block itself could be merged with a remainder. -/
theorem maximal (hc : Cut b f n front live back) (hb : b.kind = none)
    (hm : (pre ++ b :: post).IsChain (fun s t : Block => ¬(s.kind = none ∧ t.kind = none))) :
    (pre ++ (front ++ live :: back) ++ post).IsChain
      (fun s t : Block => ¬(s.kind = none ∧ t.kind = none)) := by
  have hlive : live.kind ≠ none := by simp [hc.kind]
  have hrem : ∀ lo hi, remainder lo hi = [] ∨ ∃ t : Block, t.kind = none ∧ remainder lo hi = [t] := by
    intro lo hi
    unfold remainder
    split_ifs
    · exact Or.inr ⟨_, rfl, rfl⟩
    · exact Or.inl rfl
  rw [List.isChain_append] at hm
  obtain ⟨hpre, hbp, hjoin⟩ := hm
  have hpb : ∀ s ∈ pre.getLast?, s.kind ≠ none := fun s hs hk => hjoin s hs b rfl ⟨hk, hb⟩
  obtain ⟨hhead, hpost⟩ := List.isChain_cons.mp hbp
  have hbq : ∀ t ∈ post.head?, t.kind ≠ none := fun t ht hk => hhead t ht ⟨hb, hk⟩
  have hback : (live :: (back ++ post)).IsChain (fun s t : Block => ¬(s.kind = none ∧ t.kind = none)) := by
    rcases hrem f.userEnd b.stop with he | ⟨t, ht, he⟩
    · rw [hc.back, he, List.nil_append]
      exact List.isChain_cons.mpr ⟨fun t _ hk => hlive hk.1, hpost⟩
    · rw [hc.back, he, List.singleton_append]
      exact List.isChain_cons.mpr ⟨fun u _ hk => hlive hk.1,
        List.isChain_cons.mpr ⟨fun u hu hk => hbq u hu hk.2, hpost⟩⟩
  have hmid : (front ++ live :: (back ++ post)).IsChain
      (fun s t : Block => ¬(s.kind = none ∧ t.kind = none)) := by
    rcases hrem b.start (f.userStart - 16) with he | ⟨t, ht, he⟩
    · rw [hc.front, he, List.nil_append]
      exact hback
    · rw [hc.front, he, List.singleton_append]
      refine List.isChain_cons.mpr ⟨?_, hback⟩
      intro u hu hk
      rw [List.head?_cons, Option.mem_some_iff] at hu
      exact hlive (hu ▸ hk.2)
  rw [List.append_assoc, List.append_assoc, List.cons_append]
  refine List.isChain_append.mpr ⟨hpre, hmid, ?_⟩
  intro s hs t _ hk
  exact hpb s hs hk.1

end Cut

/-- The memory `carve` leaves: the list closed around the cut block, the payload
recorded in front of it, and nothing else written. -/
structure Carved (m m' : Mem) (h h' : Heap) (pre : List Block) (b : Block) (post : List Block)
    (f : Fit) (live : Block) : Prop where
  list : Seg m' h'.head (frees pre ++ (remainder b.start (f.userStart - 16) ++
    remainder f.userEnd b.stop) ++ frees post) 0
  freeBytes : h'.freeBytes + live.size = h.freeBytes
  header : load64 m' (f.userStart - 16) = live.start ∧
    load64 m' (f.userStart - 16 + 8) = live.size
  frame : ∀ c k, Apart b.start b.size c k → (∀ t ∈ frees pre, Apart t.start 16 c k) →
    SameOn m m' c k

/-- The list through the remainders of a cut block, before the payload's header
is written. -/
theorem carve_list (hp : Partition L m h (pre ++ b :: post)) (hb : b.kind = none)
    (hr : Roomy b f n) :
    ∃ m', Seg m' h.head (frees pre) b.start ∧
      Seg m' (if minBlock ≤ f.userStart - 16 - b.start then b.start
        else if minBlock ≤ b.stop - f.userEnd then f.userEnd else load64 m (b.start + 8))
        (remainder b.start (f.userStart - 16) ++ remainder f.userEnd b.stop ++ frees post) 0 ∧
      (∀ c k, Apart b.start b.size c k → SameOn m m' c k) ∧
      m' = (if minBlock ≤ f.userStart - 16 - b.start then
        setBlock (if minBlock ≤ b.stop - f.userEnd then
            setBlock m f.userEnd (b.stop - f.userEnd) (load64 m (b.start + 8)) else m)
          b.start (f.userStart - 16 - b.start)
          (if minBlock ≤ b.stop - f.userEnd then f.userEnd else load64 m (b.start + 8))
        else if minBlock ≤ b.stop - f.userEnd then
            setBlock m f.userEnd (b.stop - f.userEnd) (load64 m (b.start + 8)) else m) := by
  obtain ⟨hpre, hpost⟩ := hp.around
  obtain ⟨hs1, hs2, hs3, hs4, _, hs5⟩ := hr
  have hbb := hp.bounds (t := b) (by simp)
  have hlist := hp.list
  rw [frees_append, frees_cons_free hb, seg_append] at hlist
  obtain ⟨x, hfront, rfl, hbsize, hback⟩ := hlist
  have hnext := load64_lt m (b.start + 8)
  unfold Tile.stop at hs5 hbb
  have hpostap : ∀ t ∈ frees post, b.stop ≤ t.start := fun t ht => hpost t (frees_mem ht).1
  have hstage := seg_setBlock hback (minBlock ≤ b.stop - f.userEnd) (b := f.userEnd)
    (n := b.stop - f.userEnd) (by unfold Tile.stop; omega) hnext (by
      intro _ t ht
      have := hpostap t ht
      unfold Tile.stop at this
      unfold minBlock Tile.stop at *
      unfold Apart
      omega)
  have hy : (if minBlock ≤ b.stop - f.userEnd then f.userEnd else load64 m (b.start + 8)) <
      2 ^ 64 := by
    split_ifs
    · omega
    · exact hnext
  have hstage' := seg_setBlock hstage (minBlock ≤ f.userStart - 16 - b.start) (b := b.start)
    (n := f.userStart - 16 - b.start) (by omega) hy (by
      intro hk t ht
      unfold minBlock at hk
      unfold Apart
      rcases List.mem_append.mp ht with ht | ht
      · split_ifs at ht
        · rw [List.mem_singleton.mp ht]
          dsimp only
          omega
        · cases ht
      · have := hpostap t ht
        unfold Tile.stop at this
        omega)
  refine ⟨_, ?_, ?_, ?_, rfl⟩
  · refine hfront.congr ?_
    intro t ht
    have h1 := hpre t (frees_mem ht).1
    have h2 := hp.size (t := t) (List.mem_append_left _ (frees_mem ht).1)
    unfold Tile.stop at h1
    have hap : ∀ lo n next (m₁ : Mem), b.start ≤ lo → SameOn m₁ (setBlock m₁ lo n next) t.start 16 :=
      fun lo n next m₁ hlo => setBlock_off _ _ _ _ _ _ (by unfold Apart; omega)
    split_ifs
    · exact (hap _ _ _ m (by omega)).trans (hap _ _ _ _ (Nat.le_refl _))
    · exact hap _ _ _ _ (Nat.le_refl _)
    · exact hap _ _ _ _ (by omega)
    · exact SameOn.refl _ _ _
  · rw [List.append_assoc]
    exact hstage'
  · intro c k hck
    unfold Apart at hck
    have hap : ∀ lo n next (m₁ : Mem), b.start ≤ lo → lo + 16 ≤ b.stop →
        SameOn m₁ (setBlock m₁ lo n next) c k := by
      intro lo n next m₁ hlo hhi
      unfold Tile.stop at hhi
      exact setBlock_off _ _ _ _ _ _ (by unfold Apart; omega)
    unfold minBlock Tile.stop
    unfold Tile.stop at hap
    split_ifs
    · exact (hap _ _ _ m (by omega) (by omega)).trans (hap _ _ _ _ (Nat.le_refl _) (by omega))
    · exact hap _ _ _ _ (Nat.le_refl _) (by omega)
    · exact hap _ _ _ _ (by omega) (by omega)
    · exact SameOn.refl _ _ _

/-- The block `carve` records for the payload. -/
def carved (b : Block) (f : Fit) (n : Nat) : Block :=
  let lo := if minBlock ≤ f.userStart - 16 - b.start then f.userStart - 16 else b.start
  let hi := if minBlock ≤ b.stop - f.userEnd then f.userEnd else b.stop
  ⟨lo, hi - lo, some ⟨f.userStart, n⟩⟩

theorem cut_carved (hr : Roomy b f n) : Cut b f n (remainder b.start (f.userStart - 16))
    (carved b f n) (remainder f.userEnd b.stop) := by
  refine ⟨rfl, rfl, rfl, rfl, ?_⟩
  obtain ⟨h4, h5, h1, h2, _, h3⟩ := hr
  apply Nat.add_sub_cancel'
  unfold carved
  dsimp only
  split_ifs <;> omega

theorem carve_spec (hp : Partition L m h (pre ++ b :: post)) (hb : b.kind = none)
    (hr : Roomy b f n) (hprev : f.prev = lastStart (frees pre)) (hcur : f.cur = b.start)
    (hend : f.blockEnd = b.stop) :
    ∃ m' h', carve m h f = .ok (f.userStart, m', h') ∧
      Carved m m' h h' pre b post f (carved b f n) := by
  obtain ⟨hpre, hpost⟩ := hp.around
  have hbb := hp.bounds (t := b) (by simp)
  have hlive := (cut_carved hr).tiles hr
  have hbytes := (cut_carved hr).bytes hr
  have hin := hlive.bounds (t := carved b f n) (by simp)
  obtain ⟨m₂, hfront, hrest, hsame, hm₂⟩ := carve_list hp hb hr
  obtain ⟨hs1, hs2, hs3, hs4, hs6, hs5⟩ := hr
  have hcarve : carve m h f =
      (let r := link m₂ h (lastStart (frees pre))
        (if minBlock ≤ f.userStart - 16 - b.start then b.start
        else if minBlock ≤ b.stop - f.userEnd then f.userEnd else load64 m (b.start + 8))
      if r.2.freeBytes < (carved b f n).size then .error .overflow
      else .ok (f.userStart, setBlock r.1 (f.userStart - 16) (carved b f n).start
          (carved b f n).size,
        { r.2 with freeBytes := r.2.freeBytes - (carved b f n).size })) := by
    rw [hm₂]
    unfold carve carved setBlock header
    simp only [hprev, hcur, hend]
    have hgap : b.start + (f.userStart - 16 - b.start) = f.userStart - 16 := by omega
    by_cases hF : minBlock ≤ f.userStart - 16 - b.start <;>
      by_cases hB : minBlock ≤ b.stop - f.userEnd <;> simp only [hF, hB, hgap, ↓reduceIte]
  have hfree : bytes (frees (pre ++ b :: post)) = bytes (frees pre) + b.size +
      bytes (frees post) := by
    rw [frees_append, frees_cons_free hb, bytes_append, bytes_cons]
    omega
  rw [hcarve]
  dsimp only
  rw [link_freeBytes, if_neg (by rw [hp.freeBytes, hfree]; omega)]
  unfold Tile.stop at hbb hs5 hpre hpost
  have hpremem : ∀ t ∈ frees pre, t ∈ pre ++ b :: post := fun t ht => by
    simp [(frees_mem ht).1]
  have hpred : ∀ c k, (∀ t ∈ frees pre, Apart t.start 16 c k) →
      lastStart (frees pre) ≠ 0 → Apart (lastStart (frees pre) + 8) 8 c k := by
    intro c k hck hne
    have hnil : frees pre ≠ [] := fun hx => hne (by rw [hx]; rfl)
    obtain ⟨t, ht, he⟩ := lastStart_mem hnil
    have := hck t ht
    unfold Apart at this ⊢
    omega
  refine ⟨_, _, rfl, ⟨?_, ?_, setBlock_loads _ _ _ _ ?_ ?_, ?_⟩⟩
  · refine Seg.congr (m := (link m₂ h (lastStart (frees pre)) _).1) ?_
      (fun t ht => setBlock_off _ _ _ _ _ _ ?_)
    · rw [List.append_assoc]
      refine seg_link hfront hrest ?_ ?_ ?_ ?_
      · have hnext := load64_lt m (b.start + 8)
        split_ifs <;> omega
      · intro t ht
        have := hp.bounds (hpremem t ht)
        omega
      · refine (hp.spaced ?_).imp (fun hx => by omega)
        exact List.filter_sublist.trans (List.sublist_append_left ..)
      · intro t ht u hu
        have h1 := hpre t (frees_mem ht).1
        have h2 := hp.size (hpremem t ht)
        simp only [List.mem_append] at hu
        rcases hu with (hu | hu) | hu
        · rw [(remainder_mem hu).1]
          omega
        · rw [(remainder_mem hu).1]
          omega
        · have := hpost u (frees_mem hu).1
          omega
    · unfold Apart
      simp only [List.mem_append] at ht
      rcases ht with (ht | ht | ht) | ht
      · have h1 := hpre t (frees_mem ht).1
        have h2 := hp.size (hpremem t ht)
        omega
      · have := remainder_mem ht
        omega
      · rw [(remainder_mem ht).1]
        omega
      · have := hpost t (frees_mem ht).1
        omega
  · rw [hp.freeBytes, hfree]
    dsimp only
    omega
  · unfold Tile.stop at hin
    omega
  · unfold Tile.stop at hin
    omega
  · intro c k hck hfr
    refine ((hsame c k hck).trans (link_off _ _ _ _ _ _ (hpred c k hfr))).trans
      (setBlock_off _ _ _ _ _ _ ?_)
    unfold Apart at hck ⊢
    omega

/-- Writes that stay off a live block leave its record where it is. -/
theorem header_congr {m m' : Mem} {t : Block} {a : Live} (hs : SameOn m m' t.start t.size)
    (h : t.start + 16 ≤ a.ptr ∧ a.ptr + a.size ≤ t.stop ∧ load64 m (a.ptr - 16) = t.start ∧
      load64 m (a.ptr - 16 + 8) = t.size) :
    t.start + 16 ≤ a.ptr ∧ a.ptr + a.size ≤ t.stop ∧ load64 m' (a.ptr - 16) = t.start ∧
      load64 m' (a.ptr - 16 + 8) = t.size := by
  obtain ⟨h1, h2, h3, h4⟩ := h
  unfold Tile.stop at h2
  refine ⟨h1, h2, ?_, ?_⟩
  · rw [load64_congr (hs.mono (by omega) (by omega))]
    exact h3
  · rw [load64_congr (hs.mono (by omega) (by omega))]
    exact h4

theorem partition_carve (hp : Partition L m h (pre ++ b :: post)) (hb : b.kind = none)
    (hr : Roomy b f n) (hc : Carved m m' h h' pre b post f (carved b f n)) :
    Partition L m' h' (pre ++ (remainder b.start (f.userStart - 16) ++ carved b f n ::
      remainder f.userEnd b.stop) ++ post) ∧
      ∀ t ∈ pre ++ post, t.kind ≠ none → SameOn m m' t.start t.size := by
  have hcut := cut_carved hr
  have hbg := hp.grain b (by simp)
  have hmid : ∀ t, t ∈ pre ++ post → t ∈ pre ++ b :: post := by
    intro t ht
    rcases List.mem_append.mp ht with h | h <;> simp [h]
  have hkeep : ∀ t ∈ pre ++ post, t.kind ≠ none → SameOn m m' t.start t.size := by
    intro t ht hk
    have hap : ∀ u ∈ pre ++ b :: post, u.kind = none → Apart u.start u.size t.start t.size := by
      intro u hu hun
      have := hp.tiles.apart hu (hmid t ht) (fun he => hk (he ▸ hun))
      unfold Tile.stop at this
      exact this
    refine hc.frame _ _ (hap b (by simp) hb) ?_
    intro u hu
    have h1 := hap u (by simp [(frees_mem hu).1]) (frees_mem hu).2
    have h2 := hp.size (t := u) (by simp [(frees_mem hu).1])
    have h3 := hp.size (hmid t ht)
    unfold Apart at h1 ⊢
    omega
  refine ⟨⟨?_, ?_, ?_, ?_, ?_, hcut.maximal hb hp.maximal⟩, hkeep⟩
  · obtain ⟨x, hx, rfl, hy⟩ := tiles_append.mp hp.tiles
    rw [List.append_assoc]
    exact tiles_append.mpr ⟨_, hx, tiles_append.mpr ⟨_, hcut.tiles hr, hy⟩⟩
  · intro t ht
    simp only [List.mem_append] at ht
    rcases ht with (ht | ht) | ht
    · exact hp.grain t (by simp [ht])
    · exact hcut.grain hr hbg.1 hbg.2.1 (List.mem_append.mpr ht)
    · exact hp.grain t (by simp [ht])
  · have hl := hc.list
    rw [frees_append, frees_append, hcut.frees]
    exact hl
  · have h1 := hc.freeBytes
    have h2 := hp.freeBytes
    have h3 := hcut.bytes hr
    rw [frees_append, frees_append, hcut.frees, bytes_append, bytes_append]
    rw [frees_append, frees_cons_free hb, bytes_append, bytes_cons] at h2
    omega
  · intro t ht a hka
    simp only [List.mem_append, List.mem_cons] at ht
    have hold : t ∈ pre ++ post → t.start + 16 ≤ a.ptr ∧ a.ptr + a.size ≤ t.stop ∧
        load64 m' (a.ptr - 16) = t.start ∧ load64 m' (a.ptr - 16 + 8) = t.size :=
      fun h => header_congr (hkeep t h (by simp [hka])) (hp.header t (hmid t h) a hka)
    have hrem : ∀ lo hi, t ∉ remainder lo hi := by
      intro lo hi hx
      unfold remainder at hx
      split_ifs at hx
      · rw [List.mem_singleton.mp hx] at hka
        cases hka
      · cases hx
    rcases ht with (ht | ht | rfl | ht) | ht
    · exact hold (List.mem_append_left _ ht)
    · exact absurd ht (hrem _ _)
    · rw [hcut.kind] at hka
      cases hka
      have hs := hcut.start
      have he := hcut.stop
      obtain ⟨h4, h5, h1, h2, h6, h3⟩ := hr
      refine ⟨?_, ?_, hc.header⟩
      · dsimp only
        rw [hs]
        split_ifs <;> omega
      · dsimp only
        rw [he]
        split_ifs <;> omega
    · exact absurd ht (hrem _ _)
    · exact hold (List.mem_append_right _ ht)

/-- A request as the search sees it: payload and alignment in grains. -/
theorem request_rounded (r : Request) :
    alignUp (max r.size 1) align = .ok (roundUp (max r.size 1) 16) ∧
    ∃ k, max r.align align = 2 ^ k ∧ 4 ≤ k ∧ k ≤ 63 ∧ r.align ∣ 2 ^ k ∧
      2 ^ k + roundUp (max r.size 1) 16 ≤ 2 ^ 63 + 64 := by
  obtain ⟨k, hk⟩ := r.pow
  have hf := r.fits
  have hk63 : k ≤ 63 := by
    by_contra hlt
    have : 2 ^ 64 ≤ 2 ^ k := Nat.pow_le_pow_right (by omega) (by omega)
    omega
  have hpos : 0 < 2 ^ k := Nat.two_pow_pos k
  have hup := roundUp_lt (max r.size 1) (a := 16) (by omega)
  refine ⟨alignUp_eq (k := 4) (by omega) (by omega), ?_⟩
  unfold align
  by_cases h4 : k ≤ 4
  · have hp : 2 ^ k ≤ 2 ^ 4 := Nat.pow_le_pow_right (by omega) h4
    refine ⟨4, by omega, by omega, by omega, ?_, by omega⟩
    rw [hk]
    exact Nat.pow_dvd_pow 2 h4
  · have hp : 2 ^ 4 ≤ 2 ^ k := Nat.pow_le_pow_right (by omega) (by omega)
    exact ⟨k, by omega, by omega, hk63, ⟨1, by rw [hk, Nat.mul_one]⟩, by omega⟩

/-- The block is wide enough for a request. -/
def Serves (r : Request) (b : Block) : Prop :=
  Wide (max r.align align) (roundUp (max r.size 1) 16) b

/-- A block that is wide enough can be cut. -/
theorem Serves.roomy (hs : Serves r b) (ps : List Block) (hk : max r.align align = 2 ^ k) (h4 : 4 ≤ k) :
    Roomy b (fitOf ps (2 ^ k) (roundUp (max r.size 1) 16) b) r.size := by
  unfold Serves Wide at hs
  rw [hk] at hs
  have hlo := le_roundUp (b.start + 16) (Nat.two_pow_pos k)
  have hstart : roundUp (b.start + 16) (2 ^ k) % 16 = 0 :=
    Nat.mod_eq_zero_of_dvd (Nat.dvd_trans (Nat.pow_dvd_pow 2 h4)
      (Nat.dvd_of_mod_eq_zero (roundUp_mod _ _)))
  have hneed := roundUp_mod (max r.size 1) 16
  have hsize := le_roundUp (max r.size 1) (a := 16) (by omega)
  have hmax := roundUp_lt (max r.size 1) (a := 16) (by omega)
  constructor <;> dsimp only [fitOf] <;> omega

/-- An allocation cuts its payload out of the first free block that is wide
enough, or there is none and it changes nothing. -/
theorem allocInner_first (hp : Partition L m h ts) (r : Request) :
    (allocInner m h r = .ok (none, m, h) ∧ ∀ t ∈ frees ts, ¬Serves r t) ∨
    ∃ pre b post f m' h', ts = pre ++ b :: post ∧ b.kind = none ∧
      (∀ t ∈ frees pre, ¬Serves r t) ∧ Serves r b ∧ Roomy b f r.size ∧
      f.userStart % r.align = 0 ∧ allocInner m h r = .ok (some f.userStart, m', h') ∧
      Carved m m' h h' pre b post f (carved b f r.size) := by
  obtain ⟨hneed, k, hk, hk4, hk63, hdvd, hle⟩ := request_rounded r
  have hb : ∀ t ∈ frees ts, t.start ≠ 0 ∧ t.stop < 2 ^ 32 := by
    intro t ht
    have hbt := hp.bounds (frees_mem ht).1
    omega
  have hserves : ∀ t, Serves r t ↔ Wide (2 ^ k) (roundUp (max r.size 1) 16) t := fun t => by
    unfold Serves
    rw [hk]
  have hfirst := firstFit_spec [] hp.list hp.fuel hb hk63 hle
  rw [lastStart_nil] at hfirst
  unfold allocInner
  rw [hneed, ok_bind, hk]
  rcases hfirst with ⟨hrun, hnone⟩ | ⟨us, b, vs, hfs, hus, hw, hrun⟩
  · rw [hrun, ok_bind]
    exact .inl ⟨rfl, fun t ht hs => hnone t ht ((hserves t).mp hs)⟩
  · obtain ⟨pre, post, rfl, rfl, rfl, hkind⟩ := frees_split hfs
    have hr := ((hserves b).mpr hw).roomy ([] ++ frees pre) hk hk4
    obtain ⟨m', h', hc, hcarved⟩ := carve_spec hp hkind hr rfl rfl rfl
    rw [hrun, ok_bind]
    dsimp only
    rw [hc, ok_bind]
    refine .inr ⟨pre, b, post, _, m', h', rfl, hkind, fun t ht hs => hus t ht ((hserves t).mp hs),
      (hserves b).mpr hw, hr, ?_, rfl, hcarved⟩
    exact Nat.mod_eq_zero_of_dvd (Nat.dvd_trans hdvd (Nat.dvd_of_mod_eq_zero (roundUp_mod _ _)))

/-- An allocation cuts its block out of a free one, or changes nothing. -/
theorem allocInner_spec (hp : Partition L m h ts)
    (hq : allocInner m h r = .ok (o, m', h')) :
    (o = none ∧ m' = m ∧ h' = h) ∨
    ∃ pre b post f, ts = pre ++ b :: post ∧ b.kind = none ∧ Roomy b f r.size ∧
      o = some f.userStart ∧ f.userStart % r.align = 0 ∧
      Carved m m' h h' pre b post f (carved b f r.size) := by
  rcases allocInner_first hp r with ⟨hrun, _⟩ | ⟨pre, b, post, f, m₁, h₁, hts, hb, _, _, hr, hal, hrun, hc⟩
  · rw [hrun] at hq
    simp only [Except.ok.injEq, Prod.mk.injEq] at hq
    exact .inl ⟨hq.1.symm, hq.2.1.symm, hq.2.2.symm⟩
  · rw [hrun] at hq
    simp only [Except.ok.injEq, Prod.mk.injEq] at hq
    obtain ⟨rfl, rfl, rfl⟩ := hq
    exact .inr ⟨pre, b, post, f, hts, hb, hr, rfl, hal, hc⟩

/-- The block an allocation of so many bytes takes at least. -/
def blockFor (size : Nat) : Nat := header + (max size 1 + 15) / 16 * 16

/-- An allocation fails only for want of a block that is wide enough. -/
theorem allocInner_total (hp : Partition L m h ts) (r : Request) :
    ∃ o m' h', allocInner m h r = .ok (o, m', h') ∧
      (o = none → r.align ≤ 16 → ∀ t ∈ frees ts, t.size < blockFor r.size) := by
  rcases allocInner_first hp r with ⟨hrun, hnone⟩ | ⟨_, _, _, f, m₁, h₁, _, _, _, _, _, _, hrun, _⟩
  · refine ⟨none, m, h, hrun, fun _ hle t ht => ?_⟩
    have hno := hnone t ht
    have hgrain := hp.grain t (frees_mem ht).1
    have h16 : max r.align align = 16 := Nat.max_eq_right hle
    unfold Serves Wide Tile.stop roundUp at hno
    rw [h16] at hno
    unfold blockFor header
    omega
  · exact ⟨some f.userStart, m₁, h₁, hrun, nofun⟩

end Osmium.Heap
