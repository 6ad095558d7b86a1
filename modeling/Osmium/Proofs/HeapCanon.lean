import Osmium.Proofs.HeapRun

namespace Osmium.Heap
open Lib

variable {L : Layout} {m m' : Mem} {h h' : Heap}

/-- The spaces that extents in address order leave between two bounds. -/
def gaps (a z : Nat) : List (Nat × Nat) → List Block
  | [] => if a < z then [⟨a, z - a, none⟩] else []
  | x :: xs => (if a < x.1 then [⟨a, x.1 - a, none⟩] else []) ++ gaps (x.1 + x.2) z xs

def extent (t : Block) : Nat × Nat := (t.start, t.size)

/-- The extents of the live blocks, in address order. -/
def taken (ts : List Block) : List (Nat × Nat) := (ts.filter (fun t => !isFree t)).map extent

theorem taken_append (xs ys : List Block) : taken (xs ++ ys) = taken xs ++ taken ys := by
  simp [taken]

theorem taken_cons_free (h : b.kind = none) (ts : List Block) : taken (b :: ts) = taken ts := by
  simp [taken, isFree, h]

theorem taken_cons_live (h : b.kind ≠ none) (ts : List Block) :
    taken (b :: ts) = extent b :: taken ts := by
  obtain ⟨a, ha⟩ := Option.ne_none_iff_exists'.mp h
  simp [taken, isFree, ha]

/-- Where no two free blocks touch, the free ones are the gaps. -/
theorem frees_gaps (ht : Tiles a z ts) (hpos : ∀ t ∈ ts, 0 < t.size)
    (hmax : ts.IsChain (fun s t => ¬(s.kind = none ∧ t.kind = none))) :
    frees ts = gaps a z (taken ts) := by
  induction ts generalizing a with
  | nil => simp [frees, taken, gaps, show a = z from ht]
  | cons t ts ih =>
    obtain ⟨rfl, ht⟩ := ht
    have htail := ih ht (fun u hu => hpos u (by simp [hu])) hmax.tail
    have hsize := hpos t (by simp)
    by_cases hk : t.kind = none
    · rw [frees_cons_free hk, taken_cons_free hk]
      cases ts with
      | nil =>
        have hz : t.start + t.size = z := ht
        have hgap : z - t.start = t.size := by omega
        simp only [frees, taken, gaps, List.filter_nil, List.map_nil]
        rw [if_pos (by omega), hgap, ← hk]
      | cons u us =>
        -- the next block is live, so the gap before it is exactly this one
        have hu : u.kind ≠ none := fun hu => (List.isChain_cons_cons.mp hmax).1 ⟨hk, hu⟩
        have hstart : u.start = t.start + t.size := ht.1
        have hgap : u.start - t.start = t.size := by omega
        have hfit : ¬t.stop < (extent u).1 := by
          unfold Tile.stop extent
          omega
        have hroom : t.start < (extent u).1 := by
          unfold extent
          omega
        rw [htail, taken_cons_live hu, gaps, gaps, if_neg hfit, if_pos hroom, extent, hgap, ← hk]
        rfl
    · obtain ⟨a, ha⟩ := Option.ne_none_iff_exists'.mp hk
      rw [frees_cons_live ha, taken_cons_live hk, htail]
      simp [gaps, extent, Tile.stop]

theorem gaps_length (a z : Nat) (xs : List (Nat × Nat)) :
    (gaps a z xs).length ≤ xs.length + 1 := by
  induction xs generalizing a with
  | nil =>
    unfold gaps
    split <;> simp
  | cons x xs ih =>
    have hrest := ih (x.1 + x.2)
    unfold gaps
    split <;> simp <;> omega

theorem taken_length (ts : List Block) : (taken ts).length = (lives ts).length := by
  induction ts with
  | nil => rfl
  | cons t ts ih =>
    cases hk : t.kind with
    | none => simpa [taken_cons_free hk, lives, hk] using ih
    | some a =>
      rw [taken_cons_live (by simp [hk])]
      simpa [lives, hk] using ih

namespace Partition

variable {ts : List Block}

theorem pos (hp : Partition L m h ts) : ∀ t ∈ ts, 0 < t.size := fun t ht => by
  have := hp.grain t ht
  omega

theorem frees_eq (hp : Partition L m h ts) :
    frees ts = gaps L.heapStart (L.heapStart + heapSize) (taken ts) :=
  frees_gaps hp.tiles hp.pos hp.maximal

/-- No free block ends where another one starts. -/
theorem isolated (hp : Partition L m h ts) : ∀ s ∈ frees ts, ∀ t ∈ frees ts, s.stop ≠ t.start := by
  intro s hs t ht heq
  obtain ⟨hs, hsk⟩ := frees_mem hs
  obtain ⟨ht, htk⟩ := frees_mem ht
  have hss := hp.pos s hs
  have hts := hp.pos t ht
  obtain ⟨pre, post, rfl⟩ := List.append_of_mem hs
  have hord := hp.tiles.ordered
  rw [List.pairwise_append, List.pairwise_cons] at hord
  rcases List.mem_append.mp ht with ht | ht
  · have := hord.2.2 t ht s (by simp)
    unfold Tile.stop at this heq
    omega
  · rcases List.mem_cons.mp ht with rfl | ht
    · unfold Tile.stop at heq
      omega
    · cases post with
      | nil => cases ht
      | cons u us =>
        -- the block right behind `s` is live, and everything else lies behind that one
        have hu : u.kind ≠ none := fun hu =>
          (List.isChain_cons_cons.mp (List.isChain_append.mp hp.maximal).2.1).1 ⟨hsk, hu⟩
        have hsu := hord.2.1.1 u (by simp)
        rcases List.mem_cons.mp ht with rfl | ht
        · exact hu htk
        · have hut := (List.pairwise_cons.mp hord.2.1.2).1 t ht
          have hus := hp.pos u (by simp)
          unfold Tile.stop at hsu hut heq
          omega

theorem taken_eq (hp : Partition L m h ts) :
    taken ts = (lives ts).map (fun a => extent (recorded m a)) := by
  unfold taken
  rw [hp.live_blocks, List.map_map]
  rfl

theorem taken_sorted (hp : Partition L m h ts) : (taken ts).Pairwise (fun x y => x.1 < y.1) := by
  have hord := List.Pairwise.sublist (List.filter_sublist (p := fun t => !isFree t)) hp.tiles.ordered
  refine List.pairwise_map.mpr (hord.imp_of_mem ?_)
  intro s t hs _ hst
  have := hp.pos s (List.mem_of_mem_filter hs)
  unfold Tile.stop at hst
  unfold extent
  dsimp only
  omega

theorem taken_nodup (hp : Partition L m h ts) : (taken ts).Nodup := by
  refine hp.taken_sorted.imp ?_
  intro x y hlt heq
  rw [heq] at hlt
  exact Nat.lt_irrefl _ hlt

/-- The free blocks are determined by the extents of the live ones. -/
theorem determined (hp : Partition L m h ts) (hp' : Partition L m' h' ts')
    (hs : ∀ x, x ∈ taken ts' ↔ x ∈ taken ts) : frees ts' = frees ts := by
  have hsame : taken ts' = taken ts := by
    refine ((List.perm_ext_iff_of_nodup hp'.taken_nodup hp.taken_nodup).mpr hs).eq_of_pairwise ?_
      hp'.taken_sorted hp.taken_sorted
    intro x y _ _ h1 h2
    omega
  rw [hp'.frees_eq, hp.frees_eq, hsame]

/-- Giving a block back leaves the other live ones as they were. -/
theorem dealloc_taken (hp : Partition L m h (pre ++ t :: post)) (hk : t.kind = some a) :
    ∃ m' h' ts', deallocInner m h a.ptr = .ok (m', h') ∧ Partition L m' h' ts' ∧
      lives ts' = lives pre ++ lives post ∧ taken ts' = taken pre ++ taken post := by
  obtain ⟨m', h', ts', run, hp', hl, hkeep, _⟩ := deallocInner_spec hp hk
  refine ⟨m', h', ts', run, hp', hl, ?_⟩
  have hrec : ∀ u ∈ pre ++ post, ∀ b, u.kind = some b →
      load64 m' (b.ptr - 16) = u.start ∧ load64 m' (b.ptr - 16 + 8) = u.size := by
    intro u hu b hb
    have hmem : u ∈ pre ++ t :: post := by
      rcases List.mem_append.mp hu with h | h <;> simp [h]
    obtain ⟨h1, h2, h3, h4⟩ := hp.header u hmem b hb
    have hsame := hkeep u hu (by simp [hb])
    unfold Tile.stop at h2
    rw [← h3, ← h4]
    exact ⟨load64_congr (hsame.mono (by omega) (by omega)),
      load64_congr (hsame.mono (by omega) (by omega))⟩
  rw [hp'.taken_eq, hl, ← taken_append, ← lives_append]
  unfold taken
  rw [Heap.live_blocks hrec, List.map_map]
  rfl

theorem taken_remainder (lo hi : Nat) : taken (remainder lo hi) = [] := by
  unfold remainder
  split <;> rfl

/-- Giving back what was just allocated. -/
theorem alloc_dealloc (hp : Partition L m h ts) (run : allocInner m h r = .ok (some p, m₁, h₁)) :
    ∃ m₂ h₂ ts₂, deallocInner m₁ h₁ p = .ok (m₂, h₂) ∧ Partition L m₂ h₂ ts₂ ∧
      taken ts₂ = taken ts := by
  rcases allocInner_spec hp run with ⟨ho, _⟩ | ⟨pre, b, post, f, rfl, hb, hr, ho, _, hcv⟩
  · cases ho
  · cases ho
    obtain ⟨hp₁, _⟩ := partition_carve hp hb hr hcv
    rw [List.append_assoc, List.append_assoc, ← List.append_assoc pre, List.cons_append] at hp₁
    obtain ⟨m₂, h₂, ts₂, run₂, hp₂, _, htk⟩ := hp₁.dealloc_taken rfl
    refine ⟨m₂, h₂, ts₂, run₂, hp₂, ?_⟩
    rw [htk, taken_append, taken_append, taken_append, taken_remainder, taken_remainder,
      List.append_nil, List.nil_append, taken_cons_free hb]

end Partition

theorem bytes_le {ts : List Block} (h : ∀ t ∈ ts, t.size < n) :
    bytes ts + ts.length ≤ ts.length * n := by
  induction ts with
  | nil => simp [bytes]
  | cons t ts ih =>
    have htail := ih (fun u hu => h u (by simp [hu]))
    have hhead := h t (by simp)
    rw [bytes_cons, List.length_cons, Nat.succ_mul]
    omega

/-- Slack that is too small for a block of its own stays with the payload. -/
theorem Roomy.carved_size (hr : Roomy b f n) : (carved b f n).size ≤ n + 96 := by
  obtain ⟨_, _, h1, h2, _, h3, h4⟩ := hr
  unfold carved minBlock
  dsimp only
  split_ifs <;> omega

/-- A request is served if it would fit into an even share of the free bytes. -/
theorem Carries.alloc_room (hc : Carries L m h live) (r : Request) (hal : r.align ≤ 16)
    (hroom : blockFor r.size * (live.length + 1) ≤ h.freeBytes) :
    ∃ p m' h', allocInner m h r = .ok (some p, m', h') ∧
      h.freeBytes ≤ h'.freeBytes + (r.size + 96) := by
  obtain ⟨ts, hp, hl⟩ := hc
  obtain ⟨o, m', h', run, hnone⟩ := allocInner_total hp r
  rcases allocInner_spec hp run with ⟨rfl, _⟩ | ⟨pre, b, post, f, rfl, hb, hr, rfl, _, hcv⟩
  · -- every free block is too small, and there are too few of them
    have hsum := bytes_le (hnone rfl hal)
    have hcount : (frees ts).length ≤ live.length + 1 := by
      rw [hp.frees_eq, ← hl.length_eq, ← taken_length]
      exact gaps_length _ _ _
    have hmul := Nat.mul_le_mul_right (blockFor r.size) hcount
    have hpos : 0 < blockFor r.size * (live.length + 1) :=
      Nat.mul_pos (by unfold blockFor header; omega) (by omega)
    rw [hp.freeBytes, Nat.mul_comm] at hroom
    rw [Nat.mul_comm] at hpos
    cases hf : frees ts with
    | nil =>
      rw [hf] at hroom
      exact absurd (Nat.lt_of_lt_of_le hpos hroom) (Nat.lt_irrefl _)
    | cons x xs =>
      rw [hf] at hroom
      rw [hf, List.length_cons] at hsum hmul
      omega
  · refine ⟨f.userStart, m', h', run, ?_⟩
    have hkept := hcv.freeBytes
    have hsize := hr.carved_size
    omega

/-- The blocks on the free list, from its head on. -/
structure FreeList (m : Mem) (h : Heap) (free : List Block) : Prop where
  list : Seg m h.head free 0
  kind : ∀ b ∈ free, b.kind = none
  start : ∀ b ∈ free, b.start ≠ 0

/-- A head determines at most one list. -/
theorem seg_unique {xs ys : List Block} (hx : Seg m a xs 0) (hy : Seg m a ys 0)
    (hxs : ∀ b ∈ xs, b.kind = none ∧ b.start ≠ 0) (hys : ∀ b ∈ ys, b.kind = none ∧ b.start ≠ 0) :
    xs = ys := by
  induction xs generalizing a ys with
  | nil =>
    cases ys with
    | nil => rfl
    | cons y ys => exact absurd (hy.1.symm.trans hx) (hys y (by simp)).2
  | cons x xs ih =>
    cases ys with
    | nil => exact absurd (hx.1.symm.trans hy) (hxs x (by simp)).2
    | cons y ys =>
      obtain ⟨hxa, hxn, hx⟩ := hx
      obtain ⟨hya, hyn, hy⟩ := hy
      have hstart : x.start = y.start := hxa.symm.trans hya
      rw [hstart] at hxn hx
      have hkind : x.kind = y.kind := (hxs x (by simp)).1.trans (hys y (by simp)).1.symm
      have hxy : x = y := by
        cases x
        cases y
        exact congr (congr (congrArg Tile.mk hstart) (hxn.symm.trans hyn)) hkind
      rw [hxy, ih hx hy (fun b hb => hxs b (by simp [hb])) (fun b hb => hys b (by simp [hb]))]

theorem FreeList.unique {xs ys : List Block} (hx : FreeList m h xs) (hy : FreeList m h ys) :
    xs = ys :=
  seg_unique hx.list hy.list (fun b hb => ⟨hx.kind b hb, hx.start b hb⟩)
    (fun b hb => ⟨hy.kind b hb, hy.start b hb⟩)

theorem Partition.freeList (hp : Partition L m h ts) : FreeList m h (frees ts) :=
  ⟨hp.list, fun _ hb => (frees_mem hb).2, fun _ hb => by
    have := hp.bounds (frees_mem hb).1
    omega⟩

/-- Two heaps with the same free list. -/
def SameFree (m : Mem) (h : Heap) (m' : Mem) (h' : Heap) : Prop :=
  h'.freeBytes = h.freeBytes ∧ ∀ free, FreeList m' h' free ↔ FreeList m h free

theorem Partition.sameFree (hp : Partition L m h ts) (hp' : Partition L m' h' ts')
    (hs : ∀ x, x ∈ taken ts' ↔ x ∈ taken ts) : SameFree m h m' h' := by
  have hf := hp.determined hp' hs
  refine ⟨by rw [hp'.freeBytes, hp.freeBytes, hf], fun free => ⟨fun hl => ?_, fun hl => ?_⟩⟩
  · rw [hl.unique hp'.freeList, hf]
    exact hp.freeList
  · rw [hl.unique hp.freeList, ← hf]
    exact hp'.freeList

/-- Give back several payloads, one after the other. -/
def deallocAll (m : Mem) (h : Heap) (order : List Live) : Except Panic (Mem × Heap) :=
  order.foldlM (fun x a => deallocInner x.1 x.2 a.ptr) (m, h)

theorem Carries.dealloc_all (hc : Carries L m h live) :
    ∃ m' h', deallocAll m h live = .ok (m', h') ∧ Carries L m' h' [] := by
  induction live generalizing m h with
  | nil => exact ⟨m, h, rfl, hc⟩
  | cons a live ih =>
    obtain ⟨m₁, h₁, run, hc₁, _⟩ := hc.free
    obtain ⟨m₂, h₂, hrest, hc₂⟩ := ih hc₁
    refine ⟨m₂, h₂, ?_, hc₂⟩
    unfold deallocAll at hrest ⊢
    rw [List.foldlM_cons, run, ok_bind]
    exact hrest

/-- An unused heap is one free block. -/
theorem Carries.whole (hc : Carries L m h []) :
    FreeList m h [⟨L.heapStart, heapSize, none⟩] ∧ h.freeBytes = heapSize := by
  obtain ⟨ts, hp, hl⟩ := hc
  have htk : taken ts = [] := by
    rw [← List.length_eq_zero_iff, taken_length, hl.eq_nil]
    rfl
  have hf : frees ts = [⟨L.heapStart, heapSize, none⟩] := by
    have hpos : L.heapStart < L.heapStart + heapSize := Nat.lt_add_of_pos_right (by decide)
    rw [hp.frees_eq, htk, gaps, if_pos hpos, Nat.add_sub_cancel_left]
  refine ⟨hf ▸ hp.freeList, ?_⟩
  rw [hp.freeBytes, hf]
  rfl

/-- The extents that the records of the live payloads give. -/
def spans (u : Use) : List (Nat × Nat) := u.live.map (fun a => extent (recorded u.mem a))

/-- In every run the free list is the list of gaps between the live blocks, so
these determine it; giving back what was just allocated restores it, and giving
back everything, in any order, leaves one block. -/
theorem heap_canonical (hr : Reach L u) :
    (∃ free blocks, FreeList u.mem u.heap free ∧ u.heap.freeBytes = bytes free ∧
      (∀ s ∈ free, ∀ t ∈ free, s.stop ≠ t.start) ∧ blocks.Perm (spans u) ∧
      blocks.Pairwise (fun x y => x.1 < y.1) ∧
      free = gaps L.heapStart (L.heapStart + heapSize) blocks) ∧
    (∀ u', Reach L u' → (∀ x, x ∈ spans u' ↔ x ∈ spans u) →
      SameFree u.mem u.heap u'.mem u'.heap) ∧
    (∀ r p m₁ h₁, allocInner u.mem u.heap r = .ok (some p, m₁, h₁) →
      ∃ m₂ h₂, deallocInner m₁ h₁ p = .ok (m₂, h₂) ∧ SameFree u.mem u.heap m₂ h₂) ∧
    ∀ order, order.Perm u.live → ∃ m' h', deallocAll u.mem u.heap order = .ok (m', h') ∧
      FreeList m' h' [⟨L.heapStart, heapSize, none⟩] ∧ h'.freeBytes = heapSize := by
  have hc := reach_carries hr
  obtain ⟨ts, hp, hl⟩ := hc
  have hspans : (taken ts).Perm (spans u) := by
    rw [hp.taken_eq]
    exact hl.map _
  refine ⟨⟨frees ts, taken ts, hp.freeList, hp.freeBytes, hp.isolated, hspans, hp.taken_sorted,
    hp.frees_eq⟩, ?_, ?_, ?_⟩
  · intro u' hr' hx
    obtain ⟨ts', hp', hl'⟩ := reach_carries hr'
    have hspans' : (taken ts').Perm (spans u') := by
      rw [hp'.taken_eq]
      exact hl'.map _
    exact hp.sameFree hp' (fun x => by rw [hspans'.mem_iff, hx, hspans.mem_iff])
  · intro r p m₁ h₁ run
    obtain ⟨m₂, h₂, ts₂, run₂, hp₂, htk⟩ := hp.alloc_dealloc run
    exact ⟨m₂, h₂, run₂, hp.sameFree hp₂ (fun x => by rw [htk])⟩
  · intro order ho
    obtain ⟨m', h', run, hc'⟩ := (Carries.perm ⟨ts, hp, hl⟩ ho.symm).dealloc_all
    exact ⟨m', h', run, hc'.whole⟩

/-- Two payloads on a fresh heap, given back in the order they came. -/
theorem heap_canonical_two : ∃ u, Reach smallImage u ∧ u.live.length = 2 ∧
    ∃ m' h', deallocAll u.mem u.heap u.live.reverse = .ok (m', h') ∧
      FreeList m' h' [⟨smallImage.heapStart, heapSize, none⟩] := by
  have hstart : Reach smallImage _ := Reach.start (fun _ => 0) 0 _ _ rfl
  have hone : Reach smallImage _ := Reach.serve _ _ hstart
    (Serve.alloc _ ⟨100, 8, ⟨3, rfl⟩, by decide⟩ (by decide) _ _ _ rfl)
  have htwo : Reach smallImage _ := Reach.serve _ _ hone
    (Serve.alloc _ ⟨24, 64, ⟨6, rfl⟩, by decide⟩ (by decide) _ _ _ rfl)
  obtain ⟨m', h', run, hf, _⟩ := (heap_canonical htwo).2.2.2 _ (List.reverse_perm _)
  exact ⟨_, htwo, rfl, m', h', run, hf⟩

end Osmium.Heap
