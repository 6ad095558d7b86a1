import Osmium.Proofs.HeapCanon

namespace Osmium.Heap
open Lib

variable {L : Layout} {m m' : Mem} {h h' : Heap} {u : Use}

/-- Byte `x` belongs to a block of the free list. -/
def Free (m : Mem) (h : Heap) (x : Nat) : Prop :=
  ∃ free, FreeList m h free ∧ ∃ b ∈ free, b.start ≤ x ∧ x < b.stop

namespace Partition

variable {ts : List Block}

theorem free_iff (hp : Partition L m h ts) : Free m h x ↔
    L.heapStart ≤ x ∧ x < L.heapStart + heapSize ∧
      ∀ e ∈ taken ts, ¬(e.1 ≤ x ∧ x < e.1 + e.2) := by
  constructor
  · rintro ⟨free, hf, t, ht, hlo, hhi⟩
    rw [hf.unique hp.freeList] at ht
    obtain ⟨ht, hk⟩ := frees_mem ht
    obtain ⟨hb1, hb2⟩ := hp.tiles.bounds ht
    refine ⟨by omega, by omega, fun e he hin => ?_⟩
    obtain ⟨s, hs, rfl⟩ := List.mem_map.mp he
    obtain ⟨hs, hlive⟩ := List.mem_filter.mp hs
    have hne : s ≠ t := fun h => by
      rw [h, isFree, hk] at hlive
      cases hlive
    have hap := hp.tiles.apart hs ht hne
    unfold extent at hin
    unfold Tile.stop at hap hhi
    dsimp only at hin
    omega
  · rintro ⟨hlo, hhi, hout⟩
    obtain ⟨t, ht, h1, h2⟩ := hp.tiles.cover hlo hhi
    refine ⟨_, hp.freeList, t, List.mem_filter.mpr ⟨ht, ?_⟩, h1, h2⟩
    by_contra hlive
    exact hout (extent t) (List.mem_map_of_mem (List.mem_filter.mpr ⟨ht, by simpa using hlive⟩)) ⟨h1, h2⟩

end Partition

theorem bytes_taken (ts : List Block) :
    bytes (frees ts) + ((taken ts).map Prod.snd).sum = bytes ts := by
  induction ts with
  | nil => rfl
  | cons t ts ih =>
    by_cases hk : t.kind = none
    · rw [frees_cons_free hk, taken_cons_free hk, bytes_cons, bytes_cons]
      omega
    · obtain ⟨a, ha⟩ := Option.ne_none_iff_exists'.mp hk
      rw [frees_cons_live ha, taken_cons_live hk, bytes_cons, List.map_cons, List.sum_cons]
      unfold extent
      omega

theorem Tiles.bytes {ts : List Block} (ht : Tiles a z ts) : a + bytes ts = z := by
  induction ts generalizing a with
  | nil => exact ht
  | cons t ts ih =>
    obtain ⟨rfl, ht⟩ := ht
    have := ih ht
    unfold Tile.stop at this
    rw [bytes_cons]
    omega

theorem Partition.free_taken (hp : Partition L m h ts) :
    h.freeBytes + ((taken ts).map Prod.snd).sum = heapSize := by
  have h1 := bytes_taken ts
  have h2 := Tiles.bytes hp.tiles
  rw [hp.freeBytes]
  omega

/-- A run of the heap from one state to another in which a payload stays out. -/
inductive Keeps (a : Live) (u : Use) : Use → Prop where
  | refl : Keeps a u u
  | serve (keeps : Keeps a u v) (step : Serve v w) (held : a ∈ w.live) : Keeps a u w
  | write (keeps : Keeps a u v) (owned : b ∈ v.live) (low : b.ptr ≤ x) (high : x < b.ptr + b.size) :
      Keeps a u { v with mem := poke v.mem x c }

theorem Untouched.recorded (hs : SameOn m m' (a.ptr - 16) 16) : recorded m' a = recorded m a := by
  unfold Heap.recorded
  rw [load64_congr (hs.mono (b := a.ptr - 16) (by omega) (by omega)),
    load64_congr (hs.mono (b := a.ptr - 16 + 8) (by omega) (by omega))]

/-- The record of a payload stays as long as the payload is out. -/
theorem Keeps.recorded (hk : Keeps a u v) (hr : Reach L u) (ha : a ∈ u.live) :
    Reach L v ∧ a ∈ v.live ∧ recorded v.mem a = recorded u.mem a := by
  induction hk with
  | refl => exact ⟨hr, ha, rfl⟩
  | serve _ step held ih =>
    obtain ⟨hv, hav, hrec⟩ := ih
    have hsame := (serve_carries step (reach_carries hv)).2 a hav held
    unfold Untouched at hsame
    exact ⟨.serve _ _ hv step, held, (Untouched.recorded (hsame.mono (by omega) (by omega))).trans hrec⟩
  | write _ owned low high ih =>
    obtain ⟨hv, hav, hrec⟩ := ih
    obtain ⟨ts, hp, hl⟩ := reach_carries hv
    obtain ⟨t, ht, hk⟩ := lives_mem (hl.mem_iff.mpr owned)
    obtain ⟨s, hs, hks⟩ := lives_mem (hl.mem_iff.mpr hav)
    exact ⟨.write _ hv _ owned _ _ low high, hav,
      (Untouched.recorded (hp.write_off ht hk low high _ hs hks)).trans hrec⟩

/-- Giving a payload back frees the extent its record names, and nothing else. -/
theorem Carries.free_exact (hc : Carries L m h live) (ha : a ∈ live) :
    ∃ m' h', deallocInner m h a.ptr = .ok (m', h') ∧
      h'.freeBytes = h.freeBytes + (recorded m a).size ∧
      ∀ x, Free m' h' x ↔
        Free m h x ∨ (recorded m a).start ≤ x ∧ x < (recorded m a).stop := by
  obtain ⟨ts, hp, hl⟩ := hc
  obtain ⟨t, ht, hk⟩ := lives_mem (hl.mem_iff.mpr ha)
  obtain ⟨pre, post, rfl⟩ := List.append_of_mem ht
  obtain ⟨m', h', ts', run, hp', _, htk⟩ := hp.dealloc_taken hk
  have hrec : recorded m a = t := by
    obtain ⟨_, _, h3, h4⟩ := hp.header t ht a hk
    unfold recorded
    rw [h3, h4, ← hk]
  have hold : taken (pre ++ t :: post) = taken pre ++ extent t :: taken post := by
    rw [taken_append, taken_cons_live (by simp [hk])]
  refine ⟨m', h', run, ?_, fun x => ?_⟩
  · have h1 := hp.free_taken
    have h2 := hp'.free_taken
    rw [hold, List.map_append, List.sum_append, List.map_cons, List.sum_cons] at h1
    rw [htk, List.map_append, List.sum_append] at h2
    rw [hrec]
    unfold extent at h1
    omega
  · rw [hp'.free_iff, hp.free_iff, htk, hold, hrec]
    obtain ⟨hb1, hb2⟩ := hp.tiles.bounds ht
    constructor
    · rintro ⟨hlo, hhi, hout⟩
      by_cases hin : t.start ≤ x ∧ x < t.stop
      · exact .inr hin
      · refine .inl ⟨hlo, hhi, fun e he => ?_⟩
        rcases List.mem_append.mp he with he | he
        · exact hout e (List.mem_append_left _ he)
        · rcases List.mem_cons.mp he with rfl | he
          · exact hin
          · exact hout e (List.mem_append_right _ he)
    · rintro (⟨hlo, hhi, hout⟩ | ⟨h1, h2⟩)
      · refine ⟨hlo, hhi, fun e he => hout e ?_⟩
        rcases List.mem_append.mp he with he | he
        · exact List.mem_append_left _ he
        · exact List.mem_append_right _ (List.mem_cons_of_mem _ he)
      · refine ⟨by omega, by omega, fun e he hin => ?_⟩
        have hsub : e ∈ taken (pre ++ post) := taken_append pre post ▸ he
        obtain ⟨s, hs, rfl⟩ := List.mem_map.mp hsub
        have hs := (List.mem_filter.mp hs).1
        obtain ⟨hpre, hpost⟩ := hp.around
        unfold extent at hin
        dsimp only at hin
        rcases List.mem_append.mp hs with hs | hs
        · have := hpre s hs
          unfold Tile.stop at this
          omega
        · have := hpost s hs
          omega

/-- Allocating takes the extent it records out of the free bytes. -/
theorem Carved.free_exact (hp : Partition L m h (pre ++ b :: post)) (hb : b.kind = none)
    (hr : Roomy b f n) (hc : Carved m m' h h' pre b post f (carved b f n)) :
    recorded m' ⟨f.userStart, n⟩ = carved b f n ∧
    ∀ x, Free m' h' x ↔ Free m h x ∧ ¬((carved b f n).start ≤ x ∧ x < (carved b f n).stop) := by
  obtain ⟨hp', _⟩ := partition_carve hp hb hr hc
  refine ⟨?_, fun x => ?_⟩
  · unfold recorded
    rw [hc.header.1, hc.header.2]
    rfl
  · have hnew : taken (pre ++ (remainder b.start (f.userStart - 16) ++ carved b f n ::
        remainder f.userEnd b.stop) ++ post) =
        taken pre ++ extent (carved b f n) :: taken post := by
      rw [taken_append, taken_append, taken_append, Partition.taken_remainder,
        taken_cons_live (fun h => by cases h), Partition.taken_remainder, List.nil_append,
        List.append_assoc]
      rfl
    have hold : taken (pre ++ b :: post) = taken pre ++ taken post := by
      rw [taken_append, taken_cons_free hb]
    rw [hp'.free_iff, hp.free_iff, hnew, hold]
    constructor
    · rintro ⟨hlo, hhi, hout⟩
      refine ⟨⟨hlo, hhi, fun e he => hout e ?_⟩, hout (extent (carved b f n)) (by simp)⟩
      rcases List.mem_append.mp he with he | he
      · exact List.mem_append_left _ he
      · exact List.mem_append_right _ (List.mem_cons_of_mem _ he)
    · rintro ⟨⟨hlo, hhi, hout⟩, hin⟩
      refine ⟨hlo, hhi, fun e he => ?_⟩
      rcases List.mem_append.mp he with he | he
      · exact hout e (List.mem_append_left _ he)
      · rcases List.mem_cons.mp he with rfl | he
        · exact hin
        · exact hout e (List.mem_append_right _ he)

/-- Allocation is exact first fit, and the record in front of the payload is what
a later `dealloc_inner` gives back. -/
theorem first_fit_exact (hr : Reach L u) (r : Request) (hpos : 0 < r.size) :
    ∃ free, FreeList u.mem u.heap free ∧ free.Pairwise (fun s t => s.start < t.start) ∧
    alignUp r.size align = .ok (roundUp r.size 16) ∧
    (∀ b ∈ free, alignUp (b.start + 16) (max r.align 16) =
      .ok (roundUp (b.start + 16) (max r.align 16))) ∧
    ∃ o m' h', allocInner u.mem u.heap r = .ok (o, m', h') ∧
      (o = none ↔ ∀ b ∈ free, ¬Wide (max r.align 16) (roundUp r.size 16) b) ∧
      (o = none → m' = u.mem ∧ h' = u.heap) ∧
      ∀ p, o = some p → ∃ us b vs c, free = us ++ b :: vs ∧
        (∀ t ∈ us, ¬Wide (max r.align 16) (roundUp r.size 16) t) ∧
        Wide (max r.align 16) (roundUp r.size 16) b ∧
        recorded m' ⟨p, r.size⟩ = c ∧ p % r.align = 0 ∧
        b.start ≤ c.start ∧ c.stop ≤ b.stop ∧ c.start + 16 ≤ p ∧ p + r.size ≤ c.stop ∧
        h'.freeBytes + c.size = u.heap.freeBytes ∧
        (∀ x, Free m' h' x ↔ Free u.mem u.heap x ∧ ¬(c.start ≤ x ∧ x < c.stop)) ∧
        ∀ v, Keeps ⟨p, r.size⟩ ⟨m', h', ⟨p, r.size⟩ :: u.live⟩ v →
          ∃ m'' h'', deallocInner v.mem v.heap p = .ok (m'', h'') ∧
            h''.freeBytes = v.heap.freeBytes + c.size ∧
            ∀ x, Free m'' h'' x ↔ Free v.mem v.heap x ∨ c.start ≤ x ∧ x < c.stop := by
  obtain ⟨ts, hp, hl⟩ := reach_carries hr
  have hmax : max r.size 1 = r.size := Nat.max_eq_left hpos
  obtain ⟨hneed, k, hk, _, hk63, _, hle⟩ := request_rounded r
  rw [hmax] at hneed
  have hserves : ∀ b, Serves r b ↔ Wide (max r.align 16) (roundUp r.size 16) b := fun b => by
    unfold Serves
    rw [hmax]
  refine ⟨frees ts, hp.freeList, (hp.spaced List.filter_sublist).imp fun h => by omega, hneed,
    fun b hb => ?_, ?_⟩
  · have hbb := hp.bounds (frees_mem hb).1
    unfold Tile.stop at hbb
    rw [show max r.align 16 = 2 ^ k from hk]
    exact alignUp_eq hk63 (by omega)
  · rcases allocInner_first hp r with ⟨hrun, hnone⟩ |
      ⟨pre, b, post, f, m', h', rfl, hb, hbefore, hb', hroom, hal, hrun, hc⟩
    · refine ⟨none, u.mem, u.heap, hrun, ⟨fun _ b hb hw => hnone b hb ((hserves b).mpr hw), fun _ => rfl⟩,
        fun _ => ⟨rfl, rfl⟩, fun p hp => by cases hp⟩
    · have hfree : frees (pre ++ b :: post) = frees pre ++ b :: frees post := by
        rw [frees_append, frees_cons_free hb]
      have hwide := (hserves b).mp hb'
      obtain ⟨hrec, hbytes⟩ := hc.free_exact hp hb hroom
      have hcut := (cut_carved hroom).tiles hroom
      have hin := hcut.bounds (t := carved b f r.size) (by simp)
      obtain ⟨hp', _⟩ := partition_carve hp hb hroom hc
      have hhead := hp'.header (carved b f r.size) (by simp) ⟨f.userStart, r.size⟩ rfl
      refine ⟨some f.userStart, m', h', hrun,
        ⟨(fun h => by cases h), fun h => absurd hwide (h b (by rw [hfree]; simp))⟩,
        (fun h => by cases h), fun p hp => ?_⟩
      obtain rfl := Option.some.inj hp
      refine ⟨frees pre, b, frees post, carved b f r.size, hfree,
        fun t ht hw => hbefore t ht ((hserves t).mpr hw), hwide, hrec, hal, hin.1, hin.2, hhead.1,
        hhead.2.1, hc.freeBytes, hbytes, fun v hv => ?_⟩
      obtain ⟨hrv, hav, hkeep⟩ := hv.recorded (.serve _ _ hr (.alloc _ r hpos _ _ _ hrun)) List.mem_cons_self
      obtain ⟨m'', h'', hrun', hsize, hfree'⟩ := (reach_carries hrv).free_exact hav
      rw [hkeep, hrec] at hsize hfree'
      exact ⟨m'', h'', hrun', hsize, hfree'⟩

/-- A payload on a cache line out of the fresh heap of a small image. -/
theorem first_fit_exact_line : ∃ u r, Reach smallImage u ∧ r.size = 100 ∧ r.align = 64 ∧
    ∃ p m' h', allocInner u.mem u.heap r = .ok (some p, m', h') ∧ p % 64 = 0 := by
  obtain ⟨u, hstart, p, m', h', run⟩ : ∃ u, Reach smallImage u ∧ ∃ p m' h',
      allocInner u.mem u.heap ⟨100, 64, ⟨6, rfl⟩, by decide⟩ = .ok (some p, m', h') :=
    ⟨_, Reach.start (fun _ => 0) 0 _ _ rfl, _, _, _, rfl⟩
  obtain ⟨_, _, _, _, _, o, _, _, run', _, _, hsome⟩ :=
    first_fit_exact hstart ⟨100, 64, ⟨6, rfl⟩, by decide⟩ (by decide)
  have ho : o = some p := congrArg Prod.fst (Except.ok.inj (run'.symm.trans run))
  obtain ⟨_, _, _, _, _, _, _, _, hal, _⟩ := hsome p ho
  exact ⟨_, _, hstart, rfl, rfl, p, m', h', run, hal⟩

end Osmium.Heap
