import Mathlib.Data.BitVec
import Mathlib.Logic.Function.Basic
import Mathlib.Logic.Relation
import Osmium.Lib.Bytes

namespace Osmium.Lib.Rv64

abbrev Word := BitVec 64

/-- Assembly text, over whatever names its registers, control registers and
labels have. A source that is `none` is `zero`. -/
inductive Insn (R C L : Type) where
  | label (l : L)
  | addi (rd rs : R) (imm : Int)
  | andi (rd rs : R) (imm : Nat)
  | ld (rd : R) (off : Nat) (base : R)
  | sd (rs : Option R) (off : Nat) (base : R)
  | csrrw (rd : R) (csr : C) (rs : R)
  | csrr (rd : R) (csr : C)
  | csrw (csr : C) (rs : Option R)
  | la (rd : R) (l : L)
  | bnez (rs : R) (l : L)
  | bgeu (rs rt : R) (l : L)
  | j (l : L)
  | call (l : L)
  | ret
  | sret
  | wfi
  deriving DecidableEq, Repr

/-- The text, where its labels lie, and how data accesses are translated; the
flag is set for stores. -/
structure Binary (R C L : Type) where
  text : List (Insn R C L)
  addr : L → Word
  mmu : Mem → Bool → Nat → Option Nat

/-- Registers, memory, and the text from the next instruction on. -/
structure Machine (R C L : Type) where
  regs : R → Word
  csrs : C → Word
  mem : Mem
  code : List (Insn R C L)

variable {R C L : Type}

namespace Insn

def mv (rd rs : R) : Insn R C L := .addi rd rs 0

def marks [DecidableEq L] (l : L) : Insn R C L → Bool
  | .label l' => l' = l
  | _ => false

end Insn

namespace Binary

/-- The text behind a label. -/
def after [DecidableEq L] (P : Binary R C L) (l : L) : List (Insn R C L) :=
  (P.text.dropWhile fun i => !i.marks l).tail

/-- Where a doubleword access goes. One that is not aligned goes nowhere. -/
def reach (P : Binary R C L) (m : Mem) (write : Bool) (base : Word) (off : Nat) : Option Nat :=
  let va := (base + BitVec.ofNat 64 off).toNat
  if va % 8 = 0 then P.mmu m write va else none

end Binary

def source (r : R → Word) (x : Option R) : Word := x.elim 0 r

/-- `n` bytes from `a` on that are translated to themselves, also after writes
among them. -/
structure Window (P : Binary R C L) (m : Mem) (a n : Nat) : Prop where
  aligned : a % 8 = 0
  fits : a + n ≤ 2 ^ 64
  flat : ∀ m' : Mem, (∀ x, x < a ∨ a + n ≤ x → m' x = m x) →
    ∀ write va, a ≤ va → va < a + n → P.mmu m' write va = some va

namespace Window

variable {P : Binary R C L} {m m' : Mem}

/-- Writes inside keep the window open. -/
theorem write (h : Window P m a n) (hm : ∀ x, x < a ∨ a + n ≤ x → m' x = m x) : Window P m' a n :=
  ⟨h.aligned, h.fits, fun m'' hm'' => h.flat m'' fun x hx => (hm'' x hx).trans (hm x hx)⟩

theorem store (h : Window P m a n) (hl : a ≤ b) (hu : b + 8 ≤ a + n) (v : Nat) :
    Window P (store64 m b v) a n := by
  apply h.write
  intro x hx
  have hoff := store64_off m b v x 1 (by unfold Apart; omega)
  exact hoff x (Nat.le_refl x) (by omega)

theorem reach (h : Window P m a n) (hb : base.toNat = a) (ho : off % 8 = 0) (hoff : off + 8 ≤ n)
    (write : Bool) : P.reach m write base off = some (a + off) := by
  have ha := h.aligned
  have hfit := h.fits
  have hva : (base + BitVec.ofNat 64 off).toNat = a + off := by
    rw [BitVec.toNat_add, BitVec.toNat_ofNat, hb]
    omega
  unfold Binary.reach
  simp only [hva]
  rw [if_pos (by omega)]
  exact h.flat m (fun _ _ => rfl) write _ (by omega) (by omega)

end Window

/-- Offsets of doublewords that lie apart among `n` bytes. -/
structure Offsets (n : Nat) (os : List Nat) : Prop where
  aligned : ∀ o ∈ os, o % 8 = 0
  inside : ∀ o ∈ os, o + 8 ≤ n
  nodup : os.Nodup

theorem Offsets.tail (h : Offsets n (o :: os)) : Offsets n os :=
  ⟨fun y hy => h.aligned y (List.mem_cons_of_mem _ hy), fun y hy => h.inside y (List.mem_cons_of_mem _ hy),
    (List.nodup_cons.mp h.nodup).2⟩

/-- Doublewords stored one after the other, each at its offset. -/
def stored (a : Nat) (ps : List (Nat × Word)) (m : Mem) : Mem :=
  ps.foldl (fun m p => store64 m (a + p.1) p.2.toNat) m

theorem stored_append (a : Nat) (ps qs : List (Nat × Word)) (m : Mem) :
    stored a (ps ++ qs) m = stored a qs (stored a ps m) := List.foldl_append

theorem stored_off {m : Mem} (h : ∀ p ∈ ps, Apart (a + p.1) 8 b n) : SameOn m (stored a ps m) b n := by
  induction ps generalizing m with
  | nil => exact SameOn.refl m b n
  | cons p ps ih =>
    have hp := store64_off m (a + p.1) p.2.toNat b n (h p List.mem_cons_self)
    exact hp.trans (ih fun q hq => h q (List.mem_cons_of_mem _ hq))

theorem Offsets.stored_outside (h : Offsets n (ps.map Prod.fst)) (m : Mem) (hx : x < a ∨ a + n ≤ x) :
    stored a ps m x = m x := by
  have hoff : SameOn m (stored a ps m) x 1 := by
    apply stored_off
    intro p hp
    have hin := h.inside p.1 (List.mem_map_of_mem hp)
    unfold Apart
    omega
  exact hoff x (Nat.le_refl x) (Nat.lt_succ_self x)

/-- What is stored is what is read back. -/
theorem Offsets.stored_load (h : Offsets n (ps.map Prod.fst)) (hp : p ∈ ps) (a : Nat) (m : Mem) :
    load64 (stored a ps m) (a + p.1) = p.2.toNat := by
  induction ps generalizing m with
  | nil => cases hp
  | cons q qs ih =>
    rcases List.mem_cons.mp hp with rfl | hp
    · let m₁ := store64 m (a + p.1) p.2.toNat
      have hkept : SameOn m₁ (stored a qs m₁) (a + p.1) 8 := by
        apply stored_off
        intro q hq
        have hq := List.mem_map_of_mem (f := Prod.fst) hq
        have h1 := h.aligned p.1 List.mem_cons_self
        have h2 := h.aligned q.1 (List.mem_cons_of_mem _ hq)
        have h3 : q.1 ≠ p.1 := fun he => (List.nodup_cons.mp h.nodup).1 (he ▸ hq)
        unfold Apart
        omega
      exact (load64_congr hkept).trans (load64_store64 m _ _ p.2.isLt)
    · exact ih h.tail hp _

/-- The registers stored one after the other, each into its slot. -/
def saves (slot : R → Nat) (base : R) (xs : List R) : List (Insn R C L) :=
  xs.map fun x => .sd (some x) (slot x) base

def image (slot : R → Nat) (r : R → Word) (xs : List R) : List (Nat × Word) := xs.map fun x => (slot x, r x)

/-- The registers loaded one after the other, each from its slot. -/
def loads (slot : R → Nat) (base : R) (xs : List R) : List (Insn R C L) :=
  xs.map fun x => .ld x (slot x) base

variable [DecidableEq R]

def loaded (m : Mem) (a : Nat) (slot : R → Nat) (xs : List R) (r : R → Word) : R → Word :=
  xs.foldl (fun r x => Function.update r x (BitVec.ofNat 64 (load64 m (a + slot x)))) r

theorem loaded_apply (m : Mem) (a : Nat) (slot : R → Nat) (xs : List R) (r : R → Word) (x : R) :
    loaded m a slot xs r x = if x ∈ xs then BitVec.ofNat 64 (load64 m (a + slot x)) else r x := by
  induction xs generalizing r with
  | nil => rfl
  | cons y ys ih =>
    unfold loaded at ih ⊢
    rw [List.foldl_cons, ih]
    by_cases hx : x ∈ ys
    · simp [hx]
    · by_cases he : x = y
      · subst he
        simp [hx]
      · simp [hx, he]

variable [DecidableEq C] [DecidableEq L]

/-- One instruction. Nothing follows one that leaves the text, or faults. -/
def step (P : Binary R C L) (M : Machine R C L) : Option (Machine R C L) :=
  match M.code with
  | .label _ :: k => some { M with code := k }
  | .addi rd rs imm :: k =>
    some { M with regs := Function.update M.regs rd (M.regs rs + BitVec.ofInt 64 imm), code := k }
  | .andi rd rs imm :: k =>
    some { M with regs := Function.update M.regs rd (M.regs rs &&& BitVec.ofNat 64 imm), code := k }
  | .ld rd off base :: k =>
    (P.reach M.mem false (M.regs base) off).map fun pa =>
      { M with regs := Function.update M.regs rd (BitVec.ofNat 64 (load64 M.mem pa)), code := k }
  | .sd rs off base :: k =>
    (P.reach M.mem true (M.regs base) off).map fun pa =>
      { M with mem := store64 M.mem pa (source M.regs rs).toNat, code := k }
  | .csrrw rd csr rs :: k =>
    some { M with
      regs := Function.update M.regs rd (M.csrs csr)
      csrs := Function.update M.csrs csr (M.regs rs)
      code := k }
  | .csrr rd csr :: k => some { M with regs := Function.update M.regs rd (M.csrs csr), code := k }
  | .csrw csr rs :: k =>
    some { M with csrs := Function.update M.csrs csr (source M.regs rs), code := k }
  | .la rd l :: k => some { M with regs := Function.update M.regs rd (P.addr l), code := k }
  | .bnez rs l :: k => some { M with code := if M.regs rs = 0 then k else P.after l }
  | .bgeu rs rt l :: k => some { M with code := if M.regs rs < M.regs rt then k else P.after l }
  | .j l :: _ => some { M with code := P.after l }
  | .call _ :: _ | .ret :: _ | .sret :: _ | .wfi :: _ | [] => none

/-- Runs of the text. -/
def Steps (P : Binary R C L) : Machine R C L → Machine R C L → Prop :=
  Relation.ReflTransGen fun M N => step P M = some N

namespace Steps

variable {P : Binary R C L} {M M' N N' : Machine R C L} {r : R → Word} {c : C → Word} {m : Mem}

theorem head (h : step P M = some M') (hs : Steps P M' N) : Steps P M N :=
  Relation.ReflTransGen.head h hs

/-- A run that leaves the text leaves it in one way. -/
theorem unique (h : Steps P M N) (h' : Steps P M N') (hn : step P N = none) (hn' : step P N' = none) : N = N' := by
  have hfun : Relator.RightUnique fun M N => step P M = some N :=
    fun _ _ _ h1 h2 => Option.some.inj (h1.symm.trans h2)
  have hlast : ∀ {A B}, step P A = none → Steps P A B → A = B := by
    intro A B hA hAB
    rcases hAB.cases_head with he | ⟨C, hC, _⟩
    · exact he
    · rw [hA] at hC
      cases hC
  rcases Relation.ReflTransGen.total_of_right_unique hfun h h' with hs | hs
  · exact hlast hn hs
  · exact (hlast hn' hs).symm

theorem label (h : Steps P ⟨r, c, m, k⟩ N) : Steps P ⟨r, c, m, .label l :: k⟩ N := head rfl h

theorem addi (h : Steps P ⟨Function.update r rd (r rs + BitVec.ofInt 64 imm), c, m, k⟩ N) :
    Steps P ⟨r, c, m, .addi rd rs imm :: k⟩ N := head rfl h

theorem mv (h : Steps P ⟨Function.update r rd (r rs), c, m, k⟩ N) : Steps P ⟨r, c, m, .mv rd rs :: k⟩ N := by
  apply addi
  rw [show BitVec.ofInt 64 0 = 0#64 from rfl, BitVec.add_zero]
  exact h

theorem andi (h : Steps P ⟨Function.update r rd (r rs &&& BitVec.ofNat 64 imm), c, m, k⟩ N) :
    Steps P ⟨r, c, m, .andi rd rs imm :: k⟩ N := head rfl h

theorem csrrw (h : Steps P ⟨Function.update r rd (c csr), Function.update c csr (r rs), m, k⟩ N) :
    Steps P ⟨r, c, m, .csrrw rd csr rs :: k⟩ N := head rfl h

theorem csrr (h : Steps P ⟨Function.update r rd (c csr), c, m, k⟩ N) :
    Steps P ⟨r, c, m, .csrr rd csr :: k⟩ N := head rfl h

theorem csrw (h : Steps P ⟨r, Function.update c csr (source r rs), m, k⟩ N) :
    Steps P ⟨r, c, m, .csrw csr rs :: k⟩ N := head rfl h

theorem la (h : Steps P ⟨Function.update r rd (P.addr l), c, m, k⟩ N) :
    Steps P ⟨r, c, m, .la rd l :: k⟩ N := head rfl h

theorem bnez (h : Steps P ⟨r, c, m, if r rs = 0 then k else P.after l⟩ N) :
    Steps P ⟨r, c, m, .bnez rs l :: k⟩ N := head rfl h

theorem bgeu (h : Steps P ⟨r, c, m, if r rs < r rt then k else P.after l⟩ N) :
    Steps P ⟨r, c, m, .bgeu rs rt l :: k⟩ N := head rfl h

theorem j (h : Steps P ⟨r, c, m, P.after l⟩ N) : Steps P ⟨r, c, m, .j l :: k⟩ N := head rfl h

theorem sd (hp : P.reach m true (r base) off = some pa)
    (h : Steps P ⟨r, c, store64 m pa (source r rs).toNat, k⟩ N) : Steps P ⟨r, c, m, .sd rs off base :: k⟩ N := by
  apply head _ h
  simp only [step, hp]
  rfl

theorem ld (hp : P.reach m false (r base) off = some pa)
    (h : Steps P ⟨Function.update r rd (BitVec.ofNat 64 (load64 m pa)), c, m, k⟩ N) :
    Steps P ⟨r, c, m, .ld rd off base :: k⟩ N := by
  apply head _ h
  simp only [step, hp]
  rfl

theorem saves {xs : List R} (hw : Window P m a n) (hb : (r base).toNat = a) (hs : Offsets n (xs.map slot))
    (h : Steps P ⟨r, c, stored a (image slot r xs) m, k⟩ N) :
    Steps P ⟨r, c, m, Rv64.saves slot base xs ++ k⟩ N := by
  induction xs generalizing m with
  | nil => exact h
  | cons x xs ih =>
    have hin := hs.inside (slot x) List.mem_cons_self
    apply sd (hw.reach hb (hs.aligned (slot x) List.mem_cons_self) hin true)
    exact ih (hw.store (by omega) (by omega) _) hs.tail h

theorem loads {xs : List R} (hw : Window P m a n) (hb : (r base).toNat = a) (hs : Offsets n (xs.map slot))
    (hbase : base ∉ xs) (h : Steps P ⟨loaded m a slot xs r, c, m, k⟩ N) :
    Steps P ⟨r, c, m, Rv64.loads slot base xs ++ k⟩ N := by
  induction xs generalizing r with
  | nil => exact h
  | cons x xs ih =>
    have hin := hs.inside (slot x) List.mem_cons_self
    apply ld (hw.reach hb (hs.aligned (slot x) List.mem_cons_self) hin false)
    refine ih ?_ hs.tail (List.not_mem_of_not_mem_cons hbase) h
    rw [Function.update_of_ne (List.ne_of_not_mem_cons hbase)]
    exact hb

/-- All registers, the base last. -/
theorem loads_all {xs : List R} (hw : Window P m a n) (hb : (r base).toNat = a)
    (hs : Offsets n ((base :: xs).map slot)) (hbase : base ∉ xs) (hall : ∀ x, x = base ∨ x ∈ xs)
    (h : Steps P ⟨fun x => BitVec.ofNat 64 (load64 m (a + slot x)), c, m, k⟩ N) :
    Steps P ⟨r, c, m, Rv64.loads slot base xs ++ .ld base (slot base) base :: k⟩ N := by
  have hkept : (loaded m a slot xs r base).toNat = a := by
    rw [loaded_apply, if_neg hbase]
    exact hb
  have hregs : Function.update (loaded m a slot xs r) base (BitVec.ofNat 64 (load64 m (a + slot base))) =
      fun x => BitVec.ofNat 64 (load64 m (a + slot x)) := by
    funext x
    by_cases hx : x = base
    · rw [hx, Function.update_self]
    · rw [Function.update_of_ne hx, loaded_apply, if_pos ((hall x).resolve_left hx)]
  apply loads hw hb hs.tail hbase
  apply ld (hw.reach hkept (hs.aligned _ List.mem_cons_self) (hs.inside _ List.mem_cons_self) false)
  rw [hregs]
  exact h

end Steps
end Osmium.Lib.Rv64
