import Osmium.Proofs.Isolation

namespace Osmium
open Lib Vm

variable {T : Type} {E : Env} {pool : PagePool E.allocStart} {s s' : Sys T}

/-- `va` translates to byte `b` with exactly the given rights. -/
def Shows (P : Phys) (t va perm : Nat) (b : UInt8) : Prop :=
  ∃ pa pte, translate P t va = .ok (some (pa, pte)) ∧ rights pte = perm ∧ P.mem pa = b

/-- A page shows its bytes at its addresses. -/
theorem Page.shows {P : Phys} (h : Page P.mem t va perm byte f) (hal : va % 4096 = 0)
    (hmask : perm &&& permMask = perm) (hx : x < 4096) (hva : va + x < vaMax) :
    Shows P t (va + x) perm (byte x) := by
  have hword : f < 2 ^ 64 := Nat.lt_trans h.bound (by decide)
  have hperm : perm < 256 := by
    rw [← hmask]
    exact Nat.lt_of_le_of_lt Nat.and_le_right (by decide)
  have hlook : Vm.look (va + x) 2 P.mem t = some (paToPte f ||| leafFlags perm) := by
    rw [look_page (show (va + x) / 4096 = va / 4096 by omega)]
    exact h.look
  refine ⟨f + x, paToPte f ||| leafFlags perm, ?_, ?_, h.bytes x hx⟩
  · rw [translate_eq _ _ _ hva, lookup_leaf hlook h.aligned hword hperm]
    have hoff : (va + x) % 4096 = x := by omega
    rw [hoff]
  · unfold rights
    rw [leaf_flag h.aligned hword hperm (by decide) (by decide)]
    exact hmask

/-- What a loaded table maps for the user: the program's pages and the stack. -/
theorem Filling.only (h : Filling E pool prog s as t (Proc.npages E prog) true P)
    (hva : va < vaMax) (hl : look va 2 P.mem t = some e) (hu : e &&& pteU ≠ 0) :
    userText ≤ va ∧ va < userText + Proc.npages E prog * pageSize ∨
      userStackTop - pageSize ≤ va ∧ va < userStackTop := by
  have hsp := h.books.owns.spaces
  have hslot := user_slot (hsp.roots _ List.mem_cons_self) hsp.kernel hl hu
  obtain ⟨_, _, hp, _⟩ := (hsp.fits _ List.mem_cons_self _ rfl).leaves va hva hslot e hl
  rcases hp with ⟨hp, _⟩ | ⟨⟨_, hp⟩ | ⟨hlo, hhi⟩, _⟩
  · exact .inl hp
  · exact .inr hp
  · have hlo : 0x50000000 ≤ va := hlo
    have hhi : va / 4096 * 4096 < 0x50000000 := hhi
    omega

/-- What a program finds when it starts: its image from `m`, zeros behind it, a
blank stack, and nothing else. -/
structure Loaded (E : Env) (m : Mem) (prog : Program) (P : Phys) (t : Nat) : Prop where
  text : ∀ n < (E.image prog).2, Shows P t (userText + n) (pteR ||| pteX ||| pteU)
    (m ((E.image prog).1 + n))
  rest : ∀ n, (E.image prog).2 ≤ n → n < Proc.npages E prog * pageSize →
    Shows P t (userText + n) (pteR ||| pteX ||| pteU) 0
  stack : ∀ n < pageSize, Shows P t (userStackTop - pageSize + n) (pteR ||| pteW ||| pteU) 0
  only : ∀ va < vaMax, ∀ pa pte, translate P t va = .ok (some (pa, pte)) → pte &&& pteU ≠ 0 →
    userText ≤ va ∧ va < userText + Proc.npages E prog * pageSize ∨
      userStackTop - pageSize ≤ va ∧ va < userStackTop

theorem Filling.loaded (h : Filling E pool prog s as t (Proc.npages E prog) true P) :
    Loaded E s.phys.mem prog P t := by
  have hmax : Proc.npages E prog * 4096 ≤ 0xfff000 := (Books.npages_fits E prog).2
  have hlen : (E.image prog).2 ≤ Proc.npages E prog * 4096 := by
    unfold Proc.npages pageSize
    omega
  have htext : ∀ n < Proc.npages E prog * 4096, Shows P t (userText + n) textPerm
      (textByte E prog s.phys.mem (n / 4096) (n % 4096)) := by
    intro n hn
    obtain ⟨f, hf⟩ := h.text (n / 4096) (by omega)
    have hva : (0x40000000 + n / 4096 * 4096) + n % 4096 < 0x4000000000 := by omega
    have hshow := hf.shows (show (0x40000000 + n / 4096 * 4096) % 4096 = 0 by omega) (by decide)
      (Nat.mod_lt n (by decide)) hva
    have hadd : userText + n / 4096 * pageSize + n % 4096 = userText + n := by
      show 0x40000000 + n / 4096 * 4096 + n % 4096 = 0x40000000 + n
      omega
    rw [hadd] at hshow
    exact hshow
  have hdiv : ∀ n, n / 4096 * pageSize + n % 4096 = n := fun n => by
    show n / 4096 * 4096 + n % 4096 = n
    omega
  refine ⟨fun n hn => ?_, fun n hlo hhi => ?_, fun n hn => ?_, fun va hva pa pte htr hu => ?_⟩
  · have hshow := htext n (by omega)
    unfold textByte at hshow
    rw [hdiv, if_pos hn, Nat.add_assoc, hdiv] at hshow
    exact hshow
  · have hshow := htext n hhi
    unfold textByte at hshow
    rw [hdiv, if_neg (Nat.not_lt.mpr hlo)] at hshow
    exact hshow
  · obtain ⟨f, hf⟩ := h.blank rfl
    have hva : 0x40fff000 + n < 0x4000000000 := by
      have hn : n < 4096 := hn
      omega
    exact hf.shows (by decide) (by decide) hn hva
  · rw [translate_eq _ _ _ hva] at htr
    obtain ⟨e, hl, he⟩ := Option.map_eq_some_iff.mp (Except.ok.inj htr)
    obtain ⟨_, rfl⟩ := Prod.mk.inj he
    exact h.only hva hl hu

/-- `load_user_image`, wherever it is called: it comes to its end unless the
pages run out, with every byte of the image in place and nothing else to see. -/
theorem load_user_image_faithful (h : Reachable E reserved s)
    (hcode : s.hart.code = .loadImage prog fin :: k) :
    Fares E (fun e => e = .outOfPages ∧ s.phys.freePages < 4 + 3 * Proc.npages E prog)
      (fun s' => ∃ t, s'.hart.code = Proc.loaded prog t fin :: k ∧
        (∀ n < (E.image prog).2, Shows s'.phys t (userText + n) (pteR ||| pteX ||| pteU)
          (s.phys.mem ((E.image prog).1 + n))) ∧
        (∀ n, (E.image prog).2 ≤ n → n < Proc.npages E prog * pageSize →
          Shows s'.phys t (userText + n) (pteR ||| pteX ||| pteU) 0) ∧
        (∀ n < pageSize, Shows s'.phys t (userStackTop - pageSize + n) (pteR ||| pteW ||| pteU) 0) ∧
        ∀ va < vaMax, ∀ pa pte, translate s'.phys t va = .ok (some (pa, pte)) → pte &&& pteU ≠ 0 →
          userText ≤ va ∧ va < userText + Proc.npages E prog * pageSize ∨
            userStackTop - pageSize ≤ va ∧ va < userStackTop) s := by
  obtain ⟨res, lost, _, hs⟩ := reachable_sane h
  refine (Books.load_fares hs.ledger hcode).seq (fun _ he => he) fun s' hs' => .arrived ?_
  obtain ⟨t, P, rfl, hfill, _⟩ := hs'
  exact ⟨t, rfl, hfill.loaded.text, hfill.loaded.rest, hfill.loaded.stack, hfill.loaded.only⟩

/-- The first program that a freshly booted kernel loads. -/
theorem load_user_image_faithful_first : ∃ s s' : Sys Nat, Reachable smallEnv none s ∧
    Runs smallEnv s s' ∧ ∃ t, s'.hart.code = [.spawnUser .greeter t, .boot] ∧
    Shows s'.phys t (userText + 1023) (pteR ||| pteX ||| pteU) (s.phys.mem (0x80220000 + 1023)) ∧
    Shows s'.phys t (userText + 1024) (pteR ||| pteX ||| pteU) 0 := by
  obtain ⟨s, run, hw, _, _, _, _, hfree⟩ := kmain_total (T := Nat) smallEnv
    (show Kalloc.reservedRange none = .ok (0, 0) from rfl) (by rw [smallEnv_seeds]; decide) (fun _ => 0) (fun _ => 0)
  rw [smallEnv_seeds] at hfree
  have hr : Reachable smallEnv none (s.goto [.loadImage .greeter .spawn, .boot]) :=
    (Reachable.boot _ _ run).step (.bootCall (.spawnUser .greeter) rfl hw.code)
  rcases (load_user_image_faithful hr rfl).runs with ⟨s', hrun, t, hcode, htext, hzero, _⟩ | ⟨_, _, _, _, _, hlack⟩
  · exact ⟨_, s', hr, hrun, t, hcode, htext 1023 (by decide), hzero 1024 (by decide) (by decide)⟩
  · have hlack : s.phys.freePages < 7 := hlack
    omega

end Osmium
