import Osmium.Proofs.HeapAlloc

namespace Osmium.Heap
open Lib

variable {L : Layout} {m : Mem} {h : Heap}

/-- The search for a block's place stops behind everything that lies below it. -/
theorem position_spec {us ps : List Block} (hu : Seg m cur us x)
    (hlt : ∀ t ∈ us, t.start < start ∧ t.start ≠ 0) (hx : x = 0 ∨ start ≤ x)
    (hf : us.length < fuel) :
    position m start fuel (lastStart ps) cur = .ok (lastStart (ps ++ us), x) := by
  induction us generalizing fuel ps cur with
  | nil =>
    cases fuel with
    | zero => simp at hf
    | succ fuel =>
      have hc : cur = x := hu
      unfold position
      rw [if_neg (by omega), List.append_nil, hc]
  | cons u us ih =>
    cases fuel with
    | zero => simp at hf
    | succ fuel =>
      obtain ⟨rfl, _, hrest⟩ := hu
      obtain ⟨hl, hn⟩ := hlt u (by simp)
      unfold position
      rw [if_pos ⟨hn, hl⟩, ← lastStart_concat ps u]
      have hnext : position m start fuel (lastStart (ps ++ [u])) (load64 m (u.start + 8)) =
          .ok (lastStart (ps ++ [u] ++ us), x) :=
        ih hrest (fun v hv => hlt v (by simp [hv])) (by simpa using hf)
      rw [lastStart_concat] at hnext ⊢
      rw [hnext]
      simp

/-- Merging a block with the one behind it, inside the list. -/
theorem absorb_spec {us vs : List Block} (hb : load64 m b = nb) (hc : load64 m c = nc)
    (hsum : nb + nc < 2 ^ 64) (hbc : b + 16 ≤ c) (hu : Seg m a us b)
    (hv : Seg m (load64 m (c + 8)) vs z) (hus : ∀ t ∈ us, Apart b 16 t.start 16)
    (hvs : ∀ t ∈ vs, Apart b 16 t.start 16) :
    ∃ m', absorb m b c = .ok m' ∧ Seg m' a (us ++ ⟨b, nb + nc, none⟩ :: vs) z ∧
      ∀ c' k, Apart b 16 c' k → SameOn m m' c' k := by
  have hoff : load64 (store64 m b (nb + nc)) (c + 8) = load64 m (c + 8) :=
    load64_store64_off _ _ _ _ (by unfold Apart; omega)
  refine ⟨setBlock m b (nb + nc) (load64 m (c + 8)), ?_, ?_, fun c' k h => setBlock_off _ _ _ _ _ _ h⟩
  · unfold absorb
    rw [hb, hc, checked_ok hsum, ok_bind]
    dsimp only
    rw [hoff]
    rfl
  · obtain ⟨h1, h2⟩ := setBlock_loads m b (nb + nc) (load64 m (c + 8)) hsum (load64_lt ..)
    refine seg_append.mpr ⟨b, hu.congr (fun t ht => setBlock_off _ _ _ _ _ _ (hus t ht)), rfl, h1, ?_⟩
    dsimp only
    rw [h2]
    exact hv.congr (fun t ht => setBlock_off _ _ _ _ _ _ (hvs t ht))

/-- The blocks behind a freed one, once it has swallowed a free neighbour. -/
inductive Ahead (size : Nat) : List Block → Nat → List Block → Prop where
  | stop (post : List Block) (next : ∀ c ∈ post.head?, c.kind ≠ none) : Ahead size post size post
  | join (c : Block) (post : List Block) (free : c.kind = none)
      (next : ∀ d ∈ post.head?, d.kind ≠ none) : Ahead size (c :: post) (size + c.size) post

/-- The blocks in front of it, and where the merged block starts. -/
inductive Behind (start size : Nat) : List Block → Nat → Nat → List Block → Prop where
  | stop (pre : List Block) (last : ∀ c ∈ pre.getLast?, c.kind ≠ none) :
      Behind start size pre start size pre
  | join (p : Block) (pre : List Block) (free : p.kind = none)
      (last : ∀ c ∈ pre.getLast?, c.kind ≠ none) :
      Behind start size (pre ++ [p]) p.start (p.size + size) pre

theorem Ahead.mem (h : Ahead size post n post') (hu : u ∈ post') : u ∈ post := by
  cases h with
  | stop => exact hu
  | join c => exact List.mem_cons_of_mem c hu

theorem Ahead.lives (h : Ahead size post n post') : lives post' = lives post := by
  cases h with
  | stop => rfl
  | join c post' hf => simp [Heap.lives, hf]

theorem Ahead.bytes (h : Ahead size post n post') :
    bytes (frees post') + n = bytes (frees post) + size := by
  cases h with
  | stop => rfl
  | join c post' hf =>
    rw [frees_cons_free hf, bytes_cons]
    omega

theorem Ahead.tiles (h : Ahead size post n post') (ht : Tiles (s + size) z post) :
    Tiles (s + n) z post' := by
  cases h with
  | stop => exact ht
  | join c post' hf =>
    obtain ⟨hs, ht⟩ := ht
    unfold Tile.stop at ht
    rw [← Nat.add_assoc, ← hs]
    exact ht

theorem Ahead.next (h : Ahead size post n post') : ∀ c ∈ post'.head?, c.kind ≠ none := by
  cases h with
  | stop _ hn => exact hn
  | join _ _ _ hn => exact hn

theorem Behind.mem (h : Behind start size pre b n pre') (hu : u ∈ pre') : u ∈ pre := by
  cases h with
  | stop => exact hu
  | join p => exact List.mem_append_left _ hu

theorem Behind.lives (h : Behind start size pre b n pre') : Heap.lives pre' = Heap.lives pre := by
  cases h with
  | stop => rfl
  | join p pre' hf => simp [Heap.lives, hf]

theorem Behind.bytes (h : Behind start size pre b n pre') :
    Heap.bytes (frees pre') + n = Heap.bytes (frees pre) + size := by
  cases h with
  | stop => rfl
  | join p pre' hf =>
    rw [frees_append, bytes_append, frees_cons_free hf, bytes_cons]
    simp [frees, Heap.bytes]
    omega

theorem Behind.tiles (h : Behind start size pre b n pre') (ht : Tiles a start pre) :
    Tiles a b pre' ∧ b + n = start + size := by
  cases h with
  | stop => exact ⟨ht, rfl⟩
  | join p pre' hf =>
    obtain ⟨x, hx, rfl, he⟩ := tiles_append.mp ht
    have he : p.start + p.size = start := he
    exact ⟨hx, by omega⟩

theorem Behind.last (h : Behind start size pre b n pre') : ∀ c ∈ pre'.getLast?, c.kind ≠ none := by
  cases h with
  | stop _ hl => exact hl
  | join _ _ _ hl => exact hl

theorem Ahead.grain (h : Ahead size post n post')
    (hg : ∀ c ∈ post, c.start % 16 = 0 ∧ c.size % 16 = 0 ∧ 32 ≤ c.size)
    (hs : size % 16 = 0 ∧ 32 ≤ size) : n % 16 = 0 ∧ 32 ≤ n := by
  cases h with
  | stop => exact hs
  | join c post' =>
    have := hg c (by simp)
    omega

theorem Behind.grain (h : Behind start size pre b n pre')
    (hg : ∀ c ∈ pre, c.start % 16 = 0 ∧ c.size % 16 = 0 ∧ 32 ≤ c.size) (ha : start % 16 = 0)
    (hs : size % 16 = 0 ∧ 32 ≤ size) : b % 16 = 0 ∧ n % 16 = 0 ∧ 32 ≤ n := by
  cases h with
  | stop => exact ⟨ha, hs⟩
  | join p pre' =>
    have := hg p (by simp)
    omega

theorem Ahead.chain (h : Ahead size post n post') (hc : post.IsChain R) : post'.IsChain R := by
  cases h with
  | stop => exact hc
  | join c post' => exact (List.isChain_cons.mp hc).2

theorem Behind.chain (h : Behind start size pre b n pre') (hc : pre.IsChain R) :
    pre'.IsChain R := by
  cases h with
  | stop => exact hc
  | join p pre' => exact (List.isChain_append.mp hc).1

/-- The freed block's header, and the merge with a free block right behind it. -/
theorem free_ahead (hp : Partition L m h (pre ++ t :: post)) (hv : Seg m x (frees post) 0) :
    ∃ n post' m', (if x ≠ 0 ∧ t.stop = x then absorb (setBlock m t.start t.size x) t.start x
        else .ok (setBlock m t.start t.size x)) = .ok m' ∧
      Ahead t.size post n post' ∧ Seg m' t.start (⟨t.start, n, none⟩ :: frees post') 0 ∧
      ∀ c k, Apart t.start 16 c k → SameOn m m' c k := by
  have hpost := hp.around.2
  have htb := hp.bounds (t := t) (by simp)
  have hts := hp.size (t := t) (by simp)
  obtain ⟨_, _, _, htiles⟩ := tiles_append.mp hp.tiles
  have hbelow : ∀ u ∈ post, t.start + 32 ≤ u.start := by
    intro u hu
    have := hpost u hu
    unfold Tile.stop at this
    omega
  have hap : ∀ u ∈ frees post, Apart t.start 16 u.start 16 := by
    intro u hu
    have := hbelow u (frees_mem hu).1
    unfold Apart
    omega
  unfold Tile.stop at htb
  have hx64 : x < 2 ^ 64 := by
    cases hfs : frees post with
    | nil =>
      rw [hfs] at hv
      have hv : x = 0 := hv
      omega
    | cons u us =>
      rw [hfs] at hv
      have hub := hp.bounds (t := u) (by simp [(frees_mem (hfs ▸ List.mem_cons_self : u ∈ frees post)).1])
      unfold Tile.stop at hub
      have := hv.1
      omega
  obtain ⟨hsize, hnext⟩ := setBlock_loads m t.start t.size x (by omega) hx64
  have hv' := hv.congr (fun u hu => setBlock_off m t.start t.size x u.start 16 (hap u hu))
  have hstay : (∀ c ∈ post.head?, c.kind ≠ none) → ¬(x ≠ 0 ∧ t.stop = x) →
      ∃ n post' m', (if x ≠ 0 ∧ t.stop = x then absorb (setBlock m t.start t.size x) t.start x
        else .ok (setBlock m t.start t.size x)) = .ok m' ∧
      Ahead t.size post n post' ∧ Seg m' t.start (⟨t.start, n, none⟩ :: frees post') 0 ∧
      ∀ c k, Apart t.start 16 c k → SameOn m m' c k := by
    intro hhead hno
    refine ⟨t.size, post, _, if_neg hno, .stop post hhead, ⟨rfl, hsize, ?_⟩,
      fun c k hck => setBlock_off _ _ _ _ _ _ hck⟩
    dsimp only
    rw [hnext]
    exact hv'
  cases post with
  | nil =>
    have hx0 : x = 0 := hv
    exact hstay (by simp) (fun hx => hx.1 hx0)
  | cons c post =>
    obtain ⟨hcs, _⟩ := htiles
    cases hck : c.kind with
    | none =>
      -- the next block is free, so it is the successor on the list
      rw [frees_cons_free hck] at hv hv'
      obtain ⟨hxc, _, _⟩ := hv
      obtain ⟨_, hcsize, hrest⟩ := hv'
      subst hxc
      have hcb := hp.bounds (t := c) (by simp)
      unfold Tile.stop at hcb hcs
      have hfirst : Seg (setBlock m t.start t.size c.start) t.start ([] : List Block) t.start := rfl
      obtain ⟨m', hm', hseg, hframe⟩ := absorb_spec hsize hcsize (by omega) (by omega) hfirst
        hrest (by simp) (fun u hu => hap u (by rw [frees_cons_free hck]; simp [hu]))
      refine ⟨_, post, m', ?_, .join c post hck ?_, hseg, ?_⟩
      · rw [if_pos ⟨by omega, by unfold Tile.stop; omega⟩]
        exact hm'
      · intro d hd hdk
        have hm := (List.isChain_append.mp hp.maximal).2.1
        have hm := (List.isChain_cons.mp (List.isChain_cons.mp hm).2).1
        exact hm d hd ⟨hck, hdk⟩
      · exact fun c' k hc' => (setBlock_off _ _ _ _ _ _ hc').trans (hframe c' k hc')
    | some a =>
      refine hstay (by simp [hck]) ?_
      rintro ⟨hx0, hxe⟩
      rw [frees_cons_live hck] at hv
      cases hfs : frees post with
      | nil =>
        rw [hfs] at hv
        exact hx0 hv
      | cons d ds =>
        rw [hfs] at hv
        have hdm : d ∈ post := (frees_mem (by rw [hfs]; simp)).1
        have ho := (List.pairwise_append.mp hp.tiles.ordered).2.1
        have ho := (List.pairwise_cons.mp (List.pairwise_cons.mp ho).2).1 d hdm
        have hcz := hp.size (t := c) (by simp)
        have := hv.1
        unfold Tile.stop at *
        omega

/-- The merge with a free block right in front, or the link from the predecessor. -/
theorem free_behind (hp : Partition L m h (pre ++ t :: post)) (hu : Seg m₂ g.head (frees pre) x)
    (hv : Seg m₂ t.start (⟨t.start, n, none⟩ :: vs) 0) (hn : n < 2 ^ 63)
    (hvs : ∀ u ∈ vs, t.start + 32 ≤ u.start) :
    ∃ b n' pre' m' g', mergeBehind m₂ g (lastStart (frees pre)) t.start = .ok (m', g') ∧
      Behind t.start n pre b n' pre' ∧ Seg m' g'.head (frees pre' ++ ⟨b, n', none⟩ :: vs) 0 ∧
      g'.freeBytes = g.freeBytes ∧
      ∀ c k, (∀ u ∈ frees pre, Apart u.start 16 c k) → SameOn m₂ m' c k := by
  have hpre := hp.around.1
  have htb := hp.bounds (t := t) (by simp)
  unfold Tile.stop at htb
  have hmem : ∀ u ∈ frees pre, u ∈ pre ++ t :: post := fun u hu => by simp [(frees_mem hu).1]
  have hbefore : ∀ u ∈ frees pre, u.start ≠ 0 ∧ u.start + 32 ≤ u.stop ∧ u.stop ≤ t.start ∧
      u.stop < 2 ^ 32 := by
    intro u hu
    have h1 := hpre u (frees_mem hu).1
    have h2 := hp.bounds (hmem u hu)
    have h3 := hp.size (hmem u hu)
    unfold Tile.stop at *
    omega
  have hspaced : (frees pre).Pairwise (fun s t => s.start + 16 ≤ t.start) :=
    (hp.spaced (List.filter_sublist.trans (List.sublist_append_left ..))).imp (fun hx => by omega)
  have hlink : (∀ c ∈ pre.getLast?, c.kind ≠ none) →
      (∀ u ∈ frees pre, lastStart (frees pre) = u.start → load64 m₂ u.start = u.size →
        u.stop ≠ t.start) →
      ∃ b n' pre' m' g', mergeBehind m₂ g (lastStart (frees pre)) t.start = .ok (m', g') ∧
        Behind t.start n pre b n' pre' ∧ Seg m' g'.head (frees pre' ++ ⟨b, n', none⟩ :: vs) 0 ∧
        g'.freeBytes = g.freeBytes ∧
        ∀ c k, (∀ u ∈ frees pre, Apart u.start 16 c k) → SameOn m₂ m' c k := by
    intro hlast hno
    have hseg := seg_link hu hv (by omega) (fun u hu => (hbefore u hu).1) hspaced (by
      intro s hs u hu
      have h1 := hbefore s hs
      rcases List.mem_cons.mp hu with rfl | hu
      · dsimp only
        omega
      · have := hvs u hu
        omega)
    have hframe : ∀ c k, (∀ u ∈ frees pre, Apart u.start 16 c k) →
        SameOn m₂ (link m₂ g (lastStart (frees pre)) t.start).1 c k := by
      intro c k hck
      refine link_off _ _ _ _ _ _ ?_
      intro hne
      obtain ⟨u, hu, he⟩ := lastStart_mem (fun hx : frees pre = [] => hne (by rw [hx]; rfl))
      have := hck u hu
      unfold Apart at this ⊢
      omega
    refine ⟨t.start, n, pre, (link m₂ g (lastStart (frees pre)) t.start).1,
      (link m₂ g (lastStart (frees pre)) t.start).2, ?_, .stop pre hlast, hseg,
      link_freeBytes .., hframe⟩
    unfold mergeBehind
    by_cases hnil : frees pre = []
    · rw [hnil, lastStart_nil]
      rfl
    · obtain ⟨us, u, hcat⟩ : ∃ us u, frees pre = us ++ [u] :=
        ⟨_, _, (List.dropLast_append_getLast hnil).symm⟩
      have hum : u ∈ frees pre := by rw [hcat]; simp
      have hsize : load64 m₂ u.start = u.size := by
        rw [hcat] at hu
        exact (seg_append.mp hu).choose_spec.2.2.1
      have hl : lastStart (frees pre) = u.start := by rw [hcat, lastStart_concat]
      have hb := hbefore u hum
      have hstop := hno u hum hl hsize
      unfold Tile.stop at hb hstop
      rw [hl, if_pos hb.1, hsize, checked_ok (by omega), ok_bind,
        if_neg (fun hx => hstop hx.2)]
  rcases List.eq_nil_or_concat pre with rfl | ⟨pre', p, hcat⟩
  · exact hlink (by simp) (by simp [frees])
  · rw [List.concat_eq_append] at hcat
    cases hpk : p.kind with
    | some a =>
      subst hcat
      refine hlink (by simp [hpk]) ?_
      intro u hu _ _ he
      rw [frees_append, frees_cons_live hpk] at hu
      have hum : u ∈ pre' := by simpa [frees] using (frees_mem (by simpa [frees] using hu)).1
      have ho := (List.pairwise_append.mp (List.pairwise_append.mp hp.tiles.ordered).1).2.2 u hum p
        (by simp)
      have h1 := hpre p (by simp)
      have h2 := hp.size (t := p) (by simp)
      unfold Tile.stop at *
      omega
    | none =>
      -- the predecessor on the list ends where the freed block starts
      subst hcat
      have hfp : frees (pre' ++ [p]) = frees pre' ++ [p] := by
        rw [frees_append, frees_cons_free hpk]
        rfl
      obtain ⟨y, hy, hty, _⟩ := tiles_append.mp hp.tiles
      obtain ⟨z, _, hpz, hpt⟩ := tiles_append.mp hy
      have hpstop : p.start + p.size = t.start := by
        have : p.stop = y := hpt
        unfold Tile.stop at this
        omega
      rw [hfp] at hu hbefore hspaced ⊢
      obtain ⟨w, hfront, rfl, hpsize, _⟩ := seg_append.mp hu
      obtain ⟨_, hnsize, hnext⟩ := hv
      dsimp only at hnsize hnext
      have hb := hbefore p (by simp)
      unfold Tile.stop at hb
      obtain ⟨m', hm', hseg, hframe⟩ := absorb_spec hpsize hnsize (by omega) (by omega) hfront hnext
        (by
          intro u hu
          have := (List.pairwise_append.mp hspaced).2.2 u hu p (by simp)
          unfold Apart
          omega)
        (by
          intro u hu
          have := hvs u hu
          unfold Apart
          omega)
      refine ⟨p.start, p.size + n, pre', m', g, ?_, .join p pre' hpk ?_, hseg, rfl, ?_⟩
      · unfold mergeBehind
        rw [lastStart_concat, if_pos hb.1, hpsize, checked_ok (by omega), ok_bind,
          if_pos ⟨hb.1, hpstop⟩, hm']
        rfl
      · intro c hc hck
        have hm := (List.isChain_append.mp (List.isChain_append.mp hp.maximal).1).2.2
        exact hm c hc p rfl ⟨hck, hpk⟩
      · exact fun c k hck => hframe c k (hck p (by simp))

/-- Freeing a live block gives its bytes back and leaves every other block's
record and payload alone. -/
theorem deallocInner_spec (hp : Partition L m h (pre ++ t :: post)) (hk : t.kind = some a) :
    ∃ m' h' ts', deallocInner m h a.ptr = .ok (m', h') ∧ Partition L m' h' ts' ∧
      lives ts' = lives pre ++ lives post ∧
      (∀ u ∈ pre ++ post, u.kind ≠ none → SameOn m m' u.start u.size) ∧
      ∀ c k, Apart L.heapStart heapSize c k → SameOn m m' c k := by
  obtain ⟨hpre, hpost⟩ := hp.around
  have htb := hp.bounds (t := t) (by simp)
  have htz := hp.size (t := t) (by simp)
  obtain ⟨_, _, hhs, hhn⟩ := hp.header t (by simp) a hk
  have hlist := hp.list
  rw [frees_append, frees_cons_live hk, seg_append] at hlist
  obtain ⟨x, hu, hv⟩ := hlist
  have hfree := hp.freeBytes_le
  unfold heapSize at hfree
  unfold Tile.stop at htb hpost hpre
  have hx : x = 0 ∨ t.start ≤ x := by
    cases hfs : frees post with
    | nil =>
      rw [hfs] at hv
      exact Or.inl hv
    | cons u us =>
      rw [hfs] at hv
      have := hpost u (frees_mem (by rw [hfs]; simp)).1
      have := hv.1
      omega
  have hpos : position m t.start listFuel 0 h.head = .ok (lastStart (frees pre), x) := by
    rw [← lastStart_nil (κ := Option Live)]
    refine position_spec hu ?_ hx ?_
    · intro u hu
      have h1 := hpre u (frees_mem hu).1
      have h2 := hp.size (t := u) (by simp [(frees_mem hu).1])
      have h3 := hp.bounds (t := u) (by simp [(frees_mem hu).1])
      exact ⟨by omega, by omega⟩
    · have := hp.fuel
      rw [frees_append, frees_cons_live hk, List.length_append] at this
      exact Nat.lt_of_le_of_lt (Nat.le_add_right _ _) this
  obtain ⟨n, post', m₂, hm₂, hahead, hv₂, hf₂⟩ := free_ahead hp hv
  have hu₂ : Seg m₂ h.head (frees pre) x := by
    refine hu.congr (fun u hu => hf₂ _ _ ?_)
    have h1 := hpre u (frees_mem hu).1
    have h2 := hp.size (t := u) (by simp [(frees_mem hu).1])
    unfold Apart
    omega
  have hn : n < 2 ^ 63 := by
    cases hahead with
    | stop => omega
    | join c post' _ _ =>
      have := hp.bounds (t := c) (by simp)
      unfold Tile.stop at this
      omega
  obtain ⟨b, n', pre', m', g', hm', hbehind, hlist', hbytes', hf'⟩ :=
    free_behind (g := { h with freeBytes := h.freeBytes + t.size }) hp hu₂ hv₂ hn (by
      intro u hu
      have := hpost u (hahead.mem (frees_mem hu).1)
      omega)
  have hframe : ∀ c k, Apart t.start 16 c k → (∀ u ∈ frees pre, Apart u.start 16 c k) →
      SameOn m m' c k := fun c k h1 h2 => (hf₂ c k h1).trans (hf' c k h2)
  have hmid : ∀ u, u ∈ pre ++ post → u ∈ pre ++ t :: post := by
    intro u hu
    rcases List.mem_append.mp hu with h | h <;> simp [h]
  have hkeep : ∀ u ∈ pre ++ post, u.kind ≠ none → SameOn m m' u.start u.size := by
    intro u hu huk
    have hz := hp.size (hmid u hu)
    refine hframe _ _ ?_ ?_
    · rcases List.mem_append.mp hu with h | h
      · have := hpre u h
        unfold Apart
        omega
      · have := hpost u h
        unfold Apart
        omega
    · intro w hw
      have hwm : w ∈ pre ++ t :: post := by simp [(frees_mem hw).1]
      have h1 := hp.tiles.apart hwm (hmid u hu) (fun he => huk (he ▸ (frees_mem hw).2))
      have h2 := hp.size hwm
      unfold Tile.stop at h1
      unfold Apart
      omega
  refine ⟨m', g', pre' ++ ⟨b, n', none⟩ :: post', ?_, ?_, ?_, hkeep, ?_⟩
  · unfold deallocInner header
    rw [hhs, hhn]
    dsimp only
    rw [checked_ok (by omega), ok_bind, checked_ok (by omega), ok_bind, hpos, ok_bind]
    dsimp only
    rw [show t.start + t.size = t.stop from rfl, hm₂, ok_bind]
    exact hm'
  · have hgrain := hp.grain
    have hm := List.isChain_append.mp hp.maximal
    have hmp := (List.isChain_cons.mp hm.2.1).2
    refine ⟨?_, ?_, ?_, ?_, ?_, ?_⟩
    · obtain ⟨y, hy, rfl, hz⟩ := tiles_append.mp hp.tiles
      obtain ⟨hy', he⟩ := hbehind.tiles hy
      refine tiles_append.mpr ⟨b, hy', rfl, ?_⟩
      rw [show (⟨b, n', none⟩ : Block).stop = b + n' from rfl, he]
      exact hahead.tiles hz
    · intro u hu
      rcases List.mem_append.mp hu with h | h
      · exact hgrain u (List.mem_append_left _ (hbehind.mem h))
      · rcases List.mem_cons.mp h with rfl | h
        · exact hbehind.grain (fun u hu => hgrain u (List.mem_append_left _ hu))
            (hgrain t (by simp)).1
            (hahead.grain (fun u hu => hgrain u (by simp [hu])) (hgrain t (by simp)).2)
        · exact hgrain u (List.mem_append_right _ (List.mem_cons_of_mem t (hahead.mem h)))
    · rw [frees_append, frees_cons_free rfl]
      exact hlist'
    · have h1 := hahead.bytes
      have h2 := hbehind.bytes
      have h3 := hp.freeBytes
      rw [frees_append, frees_cons_live hk, bytes_append] at h3
      rw [hbytes', frees_append, frees_cons_free rfl, bytes_append, bytes_cons]
      dsimp only
      omega
    · intro u hu a' hka
      have hum : u ∈ pre ++ post := by
        rcases List.mem_append.mp hu with h | h
        · exact List.mem_append_left _ (hbehind.mem h)
        · rcases List.mem_cons.mp h with rfl | h
          · cases hka
          · exact List.mem_append_right _ (hahead.mem h)
      exact header_congr (hkeep u hum (by simp [hka])) (hp.header u (hmid u hum) a' hka)
    · refine List.isChain_append.mpr ⟨hbehind.chain hm.1, List.isChain_cons.mpr
        ⟨fun c hc hx => hahead.next c hc hx.2, hahead.chain hmp⟩, ?_⟩
      intro c hc d _ hx
      exact hbehind.last c hc hx.1
  · rw [lives_append, hbehind.lives, ← hahead.lives]
    rfl
  · intro c k hck
    unfold Apart at hck
    have hin : ∀ u ∈ pre ++ t :: post, Apart u.start 16 c k := by
      intro u hu
      have h1 := hp.tiles.bounds hu
      have h2 := hp.size hu
      unfold Tile.stop at h1
      unfold Apart
      omega
    exact hframe c k (hin t (by simp)) (fun u hu => hin u (by simp [(frees_mem hu).1]))


end Osmium.Heap
