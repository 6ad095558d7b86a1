import Osmium.Proofs.HeapFree
import Mathlib.Data.List.Perm.Basic

namespace Osmium.Heap
open Lib

variable {L : Layout} {m m' : Mem} {h h' : Heap}

/-- The heap is in order and its live payloads are the given ones. -/
def Carries (L : Layout) (m : Mem) (h : Heap) (live : List Live) : Prop :=
  ∃ ts, Partition L m h ts ∧ (lives ts).Perm live

/-- A payload together with the record in front of it. -/
def Untouched (m m' : Mem) (a : Live) : Prop := SameOn m m' (a.ptr - 16) (16 + a.size)

theorem untouched_of_block (hp : Partition L m h ts) (ht : t ∈ ts) (hk : t.kind = some a)
    (hs : SameOn m m' t.start t.size) : Untouched m m' a := by
  obtain ⟨h1, h2, _, _⟩ := hp.header t ht a hk
  unfold Tile.stop at h2
  exact hs.mono (by omega) (by omega)

theorem lives_mem (h : a ∈ lives ts) : ∃ t ∈ ts, t.kind = some a := List.mem_filterMap.mp h

/-- Only list headers and records matter to the heap. -/
theorem Partition.congr (hp : Partition L m h ts)
    (hf : ∀ t ∈ ts, t.kind = none → SameOn m m' t.start 16)
    (hl : ∀ t ∈ ts, ∀ a, t.kind = some a → SameOn m m' (a.ptr - 16) 16) :
    Partition L m' h ts :=
  { hp with
    list := hp.list.congr (fun t ht => hf t (frees_mem ht).1 (frees_mem ht).2)
    header := by
      intro t ht a hk
      obtain ⟨h1, h2, h3, h4⟩ := hp.header t ht a hk
      have hs := hl t ht a hk
      refine ⟨h1, h2, ?_, ?_⟩
      · rw [load64_congr (hs.mono (Nat.le_refl _) (by omega))]
        exact h3
      · rw [load64_congr (hs.mono (by omega) (by omega))]
        exact h4 }

/-- A write into a payload leaves the record in front of every payload alone. -/
theorem Partition.write_off (hp : Partition L m h ts) (ht : t ∈ ts) (hk : t.kind = some a)
    (hx : a.ptr ≤ x) (hx' : x < a.ptr + a.size) (b : UInt8) (hu : u ∈ ts)
    (hku : u.kind = some a') : SameOn m (poke m x b) (a'.ptr - 16) 16 := by
  obtain ⟨h1, h2, _, _⟩ := hp.header t ht a hk
  obtain ⟨h3, h4, _, _⟩ := hp.header u hu a' hku
  unfold Tile.stop at h2 h4
  by_cases he : u = t
  · subst he
    rw [hk] at hku
    cases hku
    exact poke_off _ _ _ _ _ (by omega)
  · have hap := hp.tiles.apart hu ht he
    unfold Tile.stop at hap
    exact poke_off _ _ _ _ _ (by omega)

namespace Carries

theorem perm (hc : Carries L m h live) (hp : live.Perm live') : Carries L m h live' := by
  obtain ⟨ts, hts, hl⟩ := hc
  exact ⟨ts, hts, hl.trans hp⟩

/-- Memory outside the heap is nobody's business here. -/
theorem outside (hc : Carries L m h live) (hs : SameOn m m' L.heapStart heapSize) :
    Carries L m' h live := by
  obtain ⟨ts, hp, hl⟩ := hc
  refine ⟨ts, hp.congr ?_ ?_, hl⟩
  · intro t ht _
    have hb := hp.tiles.bounds ht
    have hz := hp.size ht
    unfold Tile.stop at hb
    exact hs.mono (by omega) (by omega)
  · intro t ht a hk
    have hb := hp.tiles.bounds ht
    obtain ⟨h1, h2, _, _⟩ := hp.header t ht a hk
    unfold Tile.stop at hb h2
    exact hs.mono (by omega) (by omega)

/-- Owners may write what they like into their payloads. -/
theorem write (hc : Carries L m h live) (ha : a ∈ live) (hx : a.ptr ≤ x)
    (hx' : x < a.ptr + a.size) (b : UInt8) : Carries L (poke m x b) h live := by
  obtain ⟨ts, hp, hl⟩ := hc
  obtain ⟨t, ht, hk⟩ := lives_mem (hl.mem_iff.mpr ha)
  obtain ⟨h1, h2, _, _⟩ := hp.header t ht a hk
  unfold Tile.stop at h2
  refine ⟨ts, hp.congr ?_ ?_, hl⟩
  · intro u hu hku
    have hap := hp.tiles.apart hu ht (fun he => by rw [he, hk] at hku; cases hku)
    have hz := hp.size hu
    unfold Tile.stop at hap
    exact poke_off _ _ _ _ _ (by omega)
  · exact fun u hu a' hku => hp.write_off ht hk hx hx' b hu hku

theorem alloc_none (hc : Carries L m h live) (hq : allocInner m h r = .ok (none, m', h')) :
    m' = m ∧ h' = h := by
  obtain ⟨ts, hp, _⟩ := hc
  rcases allocInner_spec hp hq with ⟨_, h1, h2⟩ | ⟨_, _, _, _, _, _, _, ho, _⟩
  · exact ⟨h1, h2⟩
  · cases ho

/-- A successful allocation: one more payload, nobody else's bytes change. -/
theorem alloc_some (hc : Carries L m h live) (hq : allocInner m h r = .ok (some p, m', h')) :
    Carries L m' h' (⟨p, r.size⟩ :: live) ∧ (∀ a ∈ live, Untouched m m' a) ∧
      (∀ c k, Apart L.heapStart heapSize c k → SameOn m m' c k) ∧ p % r.align = 0 ∧
      L.heapStart + 16 ≤ p ∧ p + r.size ≤ L.heapStart + heapSize := by
  obtain ⟨ts, hp, hl⟩ := hc
  rcases allocInner_spec hp hq with ⟨ho, _⟩ | ⟨pre, b, post, f, rfl, hb, hr, ho, hal, hcv⟩
  · cases ho
  · cases ho
    obtain ⟨hp', hkeep⟩ := partition_carve hp hb hr hcv
    have hbb := hp.tiles.bounds (t := b) (by simp)
    have hlives : lives (pre ++ b :: post) = lives pre ++ lives post := by
      simp [lives, hb]
    rw [hlives] at hl
    refine ⟨⟨_, hp', ?_⟩, ?_, ?_, hal, ?_, ?_⟩
    · rw [lives_append, lives_append, (cut_carved hr).lives, List.append_assoc]
      exact List.perm_middle.trans (hl.cons _)
    · intro a ha
      have ham := hl.mem_iff.mpr ha
      rw [← lives_append] at ham
      obtain ⟨t, ht, hk⟩ := lives_mem ham
      refine untouched_of_block hp ?_ hk (hkeep t ht (by simp [hk]))
      rcases List.mem_append.mp ht with h | h <;> simp [h]
    · intro c k hck
      unfold Apart at hck
      have hin : ∀ t ∈ pre ++ b :: post, t.start + t.size ≤ L.heapStart + heapSize ∧
          L.heapStart ≤ t.start ∧ 32 ≤ t.size := by
        intro t ht
        have h1 := hp.tiles.bounds ht
        unfold Tile.stop at h1
        exact ⟨h1.2, h1.1, hp.size ht⟩
      refine hcv.frame c k ?_ ?_
      · have := hin b (by simp)
        unfold Apart
        omega
      · intro t ht
        have := hin t (by simp [(frees_mem ht).1])
        unfold Apart
        omega
    · have := hr.front
      omega
    · have h1 := hr.size
      have h2 := hr.back
      omega

/-- A live payload can be freed, and nobody else's bytes change. -/
theorem bounds (hc : Carries L m h live) (ha : a ∈ live) :
    L.heapStart + 16 ≤ a.ptr ∧ a.ptr + a.size ≤ L.heapStart + heapSize := by
  obtain ⟨ts, hp, hl⟩ := hc
  obtain ⟨t, ht, hk⟩ := lives_mem (hl.mem_iff.mpr ha)
  obtain ⟨h1, h2, _, _⟩ := hp.header t ht a hk
  have hb := hp.tiles.bounds ht
  omega

theorem alloc_total (hc : Carries L m h live) (r : Request) :
    ∃ o m' h', allocInner m h r = .ok (o, m', h') := by
  obtain ⟨ts, hp, _⟩ := hc
  obtain ⟨o, m', h', hr, _⟩ := allocInner_total hp r
  exact ⟨o, m', h', hr⟩

theorem free (hc : Carries L m h (a :: live)) :
    ∃ m' h', deallocInner m h a.ptr = .ok (m', h') ∧ Carries L m' h' live ∧
      (∀ b ∈ live, Untouched m m' b) ∧
      ∀ c k, Apart L.heapStart heapSize c k → SameOn m m' c k := by
  obtain ⟨ts, hp, hl⟩ := hc
  obtain ⟨t, ht, hk⟩ := lives_mem (hl.mem_iff.mpr List.mem_cons_self)
  obtain ⟨pre, post, rfl⟩ := List.append_of_mem ht
  obtain ⟨m', h', ts', hr, hp', hl', hkeep, hout⟩ := deallocInner_spec hp hk
  have hrest : (lives pre ++ lives post).Perm live := by
    have hmid : lives (pre ++ t :: post) = lives pre ++ a :: lives post := by
      simp [lives, hk]
    rw [hmid] at hl
    exact (List.perm_middle.symm.trans hl).cons_inv
  refine ⟨m', h', hr, ⟨ts', hp', hl' ▸ hrest⟩, ?_, hout⟩
  intro b hb
  have hbm := hrest.mem_iff.mpr hb
  rw [← lives_append] at hbm
  obtain ⟨u, hu, huk⟩ := lives_mem hbm
  refine untouched_of_block hp ?_ huk (hkeep u hu (by simp [huk]))
  rcases List.mem_append.mp hu with h | h <;> simp [h]

/-- `init` on a heap that was never used. -/
theorem start (L : Layout) (m : Mem) (f : Nat) :
    ∃ m' h', init L m { head := 0, freeBytes := f } = .ok (m', h') ∧ Carries L m' h' [] ∧
      ∀ c k, Apart L.heapStart heapSize c k → SameOn m m' c k := by
  have hpage := L.kernelEnd_page
  have hr := L.allocStart_range
  unfold pageSize at hpage
  unfold Layout.allocStart Layout.heapStart heapSize at hr
  have hmod : L.heapStart % 16 = 0 := by
    unfold Layout.heapStart
    omega
  refine ⟨setBlock m L.heapStart heapSize 0, ⟨L.heapStart, heapSize⟩, ?_,
    ⟨[⟨L.heapStart, heapSize, none⟩], ⟨⟨rfl, rfl⟩, ?_, ?_, rfl, ?_, List.isChain_singleton _⟩,
      List.Perm.refl _⟩, ?_⟩
  · unfold init
    rw [if_neg (not_not_intro ⟨hmod, by decide⟩), if_neg (by simp)]
    rfl
  · intro t ht
    rw [List.mem_singleton.mp ht]
    exact ⟨hmod, show heapSize % 16 = 0 by decide, show 32 ≤ heapSize by decide⟩
  · obtain ⟨h1, h2⟩ := setBlock_loads m L.heapStart heapSize 0 (by decide) (by decide)
    exact ⟨rfl, h1, h2⟩
  · intro t ht a hk
    rw [List.mem_singleton.mp ht] at hk
    cases hk
  · intro c k hck
    refine setBlock_off _ _ _ _ _ _ ?_
    unfold Apart at hck ⊢
    unfold heapSize at hck
    omega

end Carries

/-- The heap in use: its memory and list, and the payloads handed out. -/
structure Use where
  mem : Mem
  heap : Heap
  live : List Live

/-- What the allocator does for its users. -/
inductive Serve : Use → Use → Prop where
  | alloc (u : Use) (r : Request) (pos : 0 < r.size) (p : Nat) (m' : Mem) (h' : Heap)
      (run : allocInner u.mem u.heap r = .ok (some p, m', h')) :
      Serve u ⟨m', h', ⟨p, r.size⟩ :: u.live⟩
  | refuse (u : Use) (r : Request) (pos : 0 < r.size) (m' : Mem) (h' : Heap)
      (run : allocInner u.mem u.heap r = .ok (none, m', h')) : Serve u ⟨m', h', u.live⟩
  | dealloc (u : Use) (before after : List Live) (a : Live) (held : u.live = before ++ a :: after)
      (m' : Mem) (h' : Heap) (run : deallocInner u.mem u.heap a.ptr = .ok (m', h')) :
      Serve u ⟨m', h', before ++ after⟩

/-- A run of the heap from its initialisation: calls of the allocator, and
writes of owners into their payloads, in any order. -/
inductive Reach (L : Layout) : Use → Prop where
  | start (m : Mem) (f : Nat) (m' : Mem) (h' : Heap)
      (run : init L m { head := 0, freeBytes := f } = .ok (m', h')) : Reach L ⟨m', h', []⟩
  | serve (u u' : Use) (reach : Reach L u) (step : Serve u u') : Reach L u'
  | write (u : Use) (reach : Reach L u) (a : Live) (owned : a ∈ u.live) (x : Nat) (b : UInt8)
      (low : a.ptr ≤ x) (high : x < a.ptr + a.size) : Reach L { u with mem := poke u.mem x b }

/-- One call: the payloads change as the caller was told, the bytes of the
others do not. -/
theorem serve_carries (hs : Serve u u') (hc : Carries L u.mem u.heap u.live) :
    Carries L u'.mem u'.heap u'.live ∧
      ∀ a ∈ u.live, a ∈ u'.live → Untouched u.mem u'.mem a := by
  cases hs with
  | alloc r _ p m' h' run =>
    obtain ⟨hc', hkeep, _⟩ := hc.alloc_some run
    exact ⟨hc', fun a ha _ => hkeep a ha⟩
  | refuse r _ m' h' run =>
    obtain ⟨rfl, rfl⟩ := hc.alloc_none run
    exact ⟨hc, fun a _ _ => SameOn.refl _ _ _⟩
  | dealloc before after a held m' h' run =>
    rw [held] at hc
    obtain ⟨m₁, h₁, hr, hc', hkeep, _⟩ := (hc.perm List.perm_middle).free
    rw [run] at hr
    obtain ⟨rfl, rfl⟩ := Prod.mk.inj (Except.ok.inj hr)
    exact ⟨hc', fun b _ hb => hkeep b hb⟩

/-- Every run keeps the heap in order. -/
theorem reach_carries (hr : Reach L u) : Carries L u.mem u.heap u.live := by
  induction hr with
  | start m f m' h' run =>
    obtain ⟨m₁, h₁, hi, hc, _⟩ := Carries.start L m f
    rw [run] at hi
    obtain ⟨rfl, rfl⟩ := Prod.mk.inj (Except.ok.inj hi)
    exact hc
  | serve u u' _ step ih => exact (serve_carries step ih).1
  | write u _ a owned x b low high ih => exact ih.write owned low high b

/-- The block recorded in front of a payload. -/
def recorded (m : Mem) (a : Live) : Block :=
  ⟨load64 m (a.ptr - 16), load64 m (a.ptr - 16 + 8), some a⟩

/-- Blocks whose records are in place are the recorded ones of their payloads. -/
theorem live_blocks {us : List Block} (h : ∀ t ∈ us, ∀ a, t.kind = some a →
      load64 m (a.ptr - 16) = t.start ∧ load64 m (a.ptr - 16 + 8) = t.size) :
    us.filter (fun t => !isFree t) = (lives us).map (recorded m) := by
  induction us with
  | nil => rfl
  | cons t us ih =>
    have htail := ih (fun u hu => h u (by simp [hu]))
    cases hk : t.kind with
    | none => simpa [lives, isFree, hk] using htail
    | some a =>
      obtain ⟨h3, h4⟩ := h t (by simp) a hk
      have hrec : recorded m a = t := by
        unfold recorded
        rw [h3, h4, ← hk]
      simpa [lives, isFree, hk, hrec] using htail

theorem Partition.live_blocks (hp : Partition L m h ts) :
    ts.filter (fun t => !isFree t) = (lives ts).map (recorded m) :=
  Heap.live_blocks (fun t ht a hk => (hp.header t ht a hk).2.2)

/-- The region as a whole: the list's blocks and the recorded ones. -/
theorem Partition.blocks (hp : Partition L m h ts) :
    ts.Perm (frees ts ++ (lives ts).map (recorded m)) := by
  rw [← hp.live_blocks]
  exact (List.filter_append_perm isFree ts).symm

/-- In every run the free blocks and the blocks recorded for live payloads tile
the region, on a list in address order, and a call of the allocator leaves every
other payload and its record alone. -/
theorem heap_partition (hr : Reach L u) :
    (∃ free blocks : List Block, (∀ b ∈ free, b.kind = none) ∧ Seg u.mem u.heap.head free 0 ∧
      free.Pairwise (fun s t => s.start < t.start) ∧ u.heap.freeBytes = bytes free ∧
      blocks.Perm (free ++ u.live.map (recorded u.mem)) ∧
      Tiles L.heapStart (L.heapStart + heapSize) blocks ∧
      blocks.Pairwise (fun s t => Apart s.start s.size t.start t.size) ∧
      ∀ b ∈ blocks, b.start % 16 = 0 ∧ b.size % 16 = 0 ∧ 32 ≤ b.size) ∧
    ∀ u', Serve u u' → ∀ a ∈ u.live, a ∈ u'.live → Untouched u.mem u'.mem a := by
  have hc := reach_carries hr
  refine ⟨?_, fun u' hs => (serve_carries hs hc).2⟩
  obtain ⟨ts, hp, hl⟩ := hc
  refine ⟨frees ts, ts, fun b hb => (frees_mem hb).2, hp.list,
    (hp.spaced List.filter_sublist).imp (fun h => by omega), hp.freeBytes,
    hp.blocks.trans ((hl.map _).append_left _), hp.tiles,
    hp.tiles.ordered.imp (fun h => Or.inl h), hp.grain⟩

/-- One allocation of 100 bytes from a fresh heap. -/
theorem heap_partition_first : ∃ u, Reach smallImage u ∧ u.live.length = 1 ∧
    ∃ free blocks : List Block, Seg u.mem u.heap.head free 0 ∧
      blocks.Perm (free ++ u.live.map (recorded u.mem)) ∧
      Tiles smallImage.heapStart (smallImage.heapStart + heapSize) blocks := by
  have hstart : Reach smallImage _ := Reach.start (fun _ => 0) 0 _ _ rfl
  have hr : Reach smallImage _ := Reach.serve _ _ hstart
    (Serve.alloc _ ⟨100, 8, ⟨3, rfl⟩, by decide⟩ (by decide) _ _ _ rfl)
  obtain ⟨⟨free, blocks, _, hseg, _, _, hperm, htiles, _⟩, _⟩ := heap_partition hr
  exact ⟨_, hr, rfl, free, blocks, hseg, hperm, htiles⟩

end Osmium.Heap
