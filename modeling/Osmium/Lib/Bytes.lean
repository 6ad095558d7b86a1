import Mathlib.Algebra.GroupWithZero.Nat
import Mathlib.Data.List.Basic

namespace Osmium.Lib

/-- Byte-addressed memory. Every address holds a byte; which of them are backed
by storage is the business of whoever uses the memory. -/
abbrev Mem := Nat → UInt8

/-- Little-endian load of `n` bytes. -/
def load (m : Mem) (a : Nat) : Nat → Nat
  | 0 => 0
  | n + 1 => (m a).toNat + 256 * load m (a + 1) n

/-- Little-endian store of the low `n` bytes of `v`. -/
def store (m : Mem) (a n v : Nat) : Mem :=
  fun x => if a ≤ x ∧ x < a + n then UInt8.ofNat (v / 256 ^ (x - a)) else m x

def load64 (m : Mem) (a : Nat) : Nat := load m a 8

def store64 (m : Mem) (a v : Nat) : Mem := store m a 8 v

/-- Set `n` bytes from `a` on to `b`. -/
def fill (m : Mem) (a n : Nat) (b : UInt8) : Mem :=
  fun x => if a ≤ x ∧ x < a + n then b else m x

/-- Copy `n` bytes between ranges that do not overlap. -/
def copy (m : Mem) (src dst n : Nat) : Mem :=
  fun x => if dst ≤ x ∧ x < dst + n then m (src + (x - dst)) else m x

/-- Write one byte. -/
def poke (m : Mem) (a : Nat) (b : UInt8) : Mem := fun x => if x = a then b else m x

/-- `m'` holds what `m` holds on `[a, a + n)`. -/
def SameOn (m m' : Mem) (a n : Nat) : Prop := ∀ x, a ≤ x → x < a + n → m' x = m x

/-- Two ranges of addresses have no address in common. -/
def Apart (a n b k : Nat) : Prop := a + n ≤ b ∨ b + k ≤ a

theorem SameOn.refl (m : Mem) (a n : Nat) : SameOn m m a n := fun _ _ _ => rfl

theorem SameOn.trans {m m' m'' : Mem} (h : SameOn m m' a n) (h' : SameOn m' m'' a n) :
    SameOn m m'' a n := fun x hl hu => (h' x hl hu).trans (h x hl hu)

theorem SameOn.symm {m m' : Mem} (h : SameOn m m' a n) : SameOn m' m a n :=
  fun x hl hu => (h x hl hu).symm

theorem SameOn.mono {m m' : Mem} (h : SameOn m m' a n) (hl : a ≤ b) (hu : b + k ≤ a + n) :
    SameOn m m' b k := fun x hb hk => h x (by omega) (by omega)

theorem load_lt (m : Mem) (a n : Nat) : load m a n < 256 ^ n := by
  induction n generalizing a with
  | zero => simp [load]
  | succ n ih =>
    have hb := (m a).toNat_lt
    have ht := ih (a + 1)
    simp only [load, Nat.pow_succ]
    omega

theorem load_congr {m m' : Mem} (h : SameOn m m' a n) : load m' a n = load m a n := by
  induction n generalizing a with
  | zero => rfl
  | succ n ih =>
    simp only [load]
    rw [h a (Nat.le_refl a) (by omega), ih (h.mono (by omega) (by omega))]

theorem store_off (m : Mem) (a n v b k : Nat) (h : Apart a n b k) :
    SameOn m (store m a n v) b k := by
  intro x hl hu
  unfold store
  rw [if_neg]
  rcases h with h | h <;> omega

/-- Reading back a store gives the stored value, cut to its width. The store is
taken at an earlier base so that the tail of a word is again an instance. -/
theorem load_store_from (m : Mem) (a n v i k : Nat) (h : i + k ≤ n) :
    load (store m a n v) (a + i) k = v / 256 ^ i % 256 ^ k := by
  induction k generalizing i with
  | zero => simp [load, Nat.mod_one]
  | succ k ih =>
    have hb : store m a n v (a + i) = UInt8.ofNat (v / 256 ^ i) := by
      unfold store
      rw [if_pos ⟨by omega, by omega⟩, Nat.add_sub_cancel_left]
    have ht := ih (i + 1) (by omega)
    simp only [load, hb]
    have hd : v / 256 ^ (i + 1) = v / 256 ^ i / 256 := by
      rw [Nat.pow_succ, Nat.div_div_eq_div_mul]
    rw [Nat.add_assoc, ht, UInt8.toNat_ofNat', hd, Nat.pow_succ 256 k,
      Nat.mul_comm (256 ^ k) 256, Nat.mod_mul]

theorem load_store (m : Mem) (a n v : Nat) : load (store m a n v) a n = v % 256 ^ n := by
  have h := load_store_from m a n v 0 n (by omega)
  simpa using h

theorem load64_lt (m : Mem) (a : Nat) : load64 m a < 2 ^ 64 := by
  have h := load_lt m a 8
  unfold load64
  omega

theorem load64_store64 (m : Mem) (a v : Nat) (hv : v < 2 ^ 64) :
    load64 (store64 m a v) a = v := by
  unfold load64 store64
  rw [load_store]
  exact Nat.mod_eq_of_lt (by omega)

theorem store64_off (m : Mem) (a v b k : Nat) (h : Apart a 8 b k) :
    SameOn m (store64 m a v) b k := store_off m a 8 v b k h

theorem load64_congr {m m' : Mem} (h : SameOn m m' a 8) : load64 m' a = load64 m a :=
  load_congr h

theorem load64_store64_off (m : Mem) (a v b : Nat) (h : Apart a 8 b 8) :
    load64 (store64 m a v) b = load64 m b := load64_congr (store64_off m a v b 8 h)

theorem fill_off (m : Mem) (a n : Nat) (b : UInt8) (c k : Nat) (h : Apart a n c k) :
    SameOn m (fill m a n b) c k := by
  intro x hl hu
  unfold fill
  rw [if_neg]
  rcases h with h | h <;> omega

theorem fill_on (m : Mem) (a n : Nat) (b : UInt8) (hl : a ≤ x) (hu : x < a + n) :
    fill m a n b x = b := if_pos ⟨hl, hu⟩

theorem copy_off (m : Mem) (src dst n c k : Nat) (h : Apart dst n c k) :
    SameOn m (copy m src dst n) c k := by
  intro x hl hu
  unfold copy
  rw [if_neg]
  rcases h with h | h <;> omega

theorem copy_on (m : Mem) (src dst n : Nat) (hi : i < n) :
    copy m src dst n (dst + i) = m (src + i) := by
  unfold copy
  rw [if_pos ⟨by omega, by omega⟩, Nat.add_sub_cancel_left]

theorem poke_off (m : Mem) (a : Nat) (b : UInt8) (c k : Nat) (h : a < c ∨ c + k ≤ a) :
    SameOn m (poke m a b) c k := by
  intro x hl hu
  unfold poke
  rw [if_neg]
  rcases h with h | h <;> omega

/-- A range of zero bytes loads as zero. -/
theorem load_zero {m : Mem} (h : ∀ x, a ≤ x → x < a + n → m x = 0) : load m a n = 0 := by
  induction n generalizing a with
  | zero => rfl
  | succ n ih =>
    simp only [load]
    rw [h a (Nat.le_refl a) (by omega), ih (fun x hl hu => h x (by omega) (by omega))]
    rfl

end Osmium.Lib
