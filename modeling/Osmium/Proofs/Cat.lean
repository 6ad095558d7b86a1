import Osmium.Shell
import Osmium.Proofs.Start

namespace Osmium.Shell
open Lib

theorem isUtf8_nil : isUtf8 [] = true := by
  unfold isUtf8
  rw [ByteArray.validateUTF8_eq_true_iff]
  exact ByteArray.isValidUTF8_empty

theorem isUtf8_ascii (text : String) : isUtf8 (ascii text) = true := by
  unfold isUtf8
  rw [ByteArray.validateUTF8_eq_true_iff]
  exact text.isValidUTF8

theorem render_eq (chunk : List UInt8) : render chunk = chunk ↔ isUtf8 chunk = true := by
  unfold render
  split
  next h => exact iff_of_true rfl h
  next h => exact ⟨fun he => he ▸ isUtf8_ascii "?", fun hv => absurd hv h⟩

theorem render_length (h : chunk.length ≠ 0) : (render chunk).length ≤ chunk.length := by
  unfold render
  split
  · exact Nat.le_refl _
  · exact Nat.pos_of_ne_zero h

/-- The chunk of a file that `cat` reads at an offset. -/
def chunkAt (data : List UInt8) (offset : Nat) : List UInt8 := (data.drop offset).take 64

theorem chunkAt_length (data : List UInt8) (offset : Nat) :
    (chunkAt data offset).length = min 64 (data.length - offset) := by
  unfold chunkAt
  rw [List.length_take, List.length_drop]

theorem chunkAt_end (h : data.length ≤ offset) : chunkAt data offset = [] := by
  unfold chunkAt
  rw [List.drop_eq_nil_of_le h, List.take_nil]

theorem drop_chunkAt (data : List UInt8) (offset : Nat) : data.drop offset =
    chunkAt data offset ++ data.drop (offset + (chunkAt data offset).length) := by
  have htake := List.take_append_drop 64 (data.drop offset)
  rw [List.drop_drop] at htake
  by_cases hlong : 64 ≤ data.length - offset
  · rw [chunkAt_length, Nat.min_eq_left hlong]
    exact htake.symm
  · rw [chunkAt_length, List.drop_eq_nil_of_le (i := offset + _) (by omega), List.append_nil]
    unfold chunkAt
    exact (List.take_of_length_le (by rw [List.length_drop]; omega)).symm

variable {E : Env} {idx : Nat} {name data : List UInt8}

section File

variable (file : E.files[idx]? = some (name, data))
include file

theorem readAt_chunk (offset : Nat) : Fs.readAt E idx offset 64 = chunkAt data offset := by
  unfold Fs.readAt
  rw [file]
  rfl

theorem catLoop_end (h : data.length ≤ offset) : catLoop E idx offset = [] := by
  rw [catLoop, readAt_chunk file, chunkAt_end h]
  exact if_pos rfl

theorem catLoop_next (h : offset < data.length) : catLoop E idx offset =
    render (chunkAt data offset) :: catLoop E idx (offset + (chunkAt data offset).length) := by
  rw [catLoop, readAt_chunk file]
  refine if_neg ?_
  rw [chunkAt_length]
  omega

/-- What is printed from an offset on is never longer than what is left of the
file, and is the same exactly when each chunk stands by itself. -/
theorem catLoop_exact (n offset : Nat) (hn : data.length ≤ offset + 64 * n) :
    (catLoop E idx offset).flatten.length ≤ (data.drop offset).length ∧
      ((catLoop E idx offset).flatten = data.drop offset ↔
        ∀ k, isUtf8 (chunkAt data (offset + 64 * k)) = true) := by
  have hover : ∀ offset, data.length ≤ offset →
      (catLoop E idx offset).flatten.length ≤ (data.drop offset).length ∧
        ((catLoop E idx offset).flatten = data.drop offset ↔
          ∀ k, isUtf8 (chunkAt data (offset + 64 * k)) = true) := by
    intro offset hend
    rw [catLoop_end file hend, List.drop_eq_nil_of_le hend]
    refine ⟨Nat.le_refl _, iff_of_true rfl fun k => ?_⟩
    rw [chunkAt_end (by omega)]
    exact isUtf8_nil
  induction n generalizing offset with
  | zero => exact hover offset hn
  | succ n ih =>
    by_cases hend : data.length ≤ offset
    · exact hover offset hend
    · have hsize := chunkAt_length data offset
      obtain ⟨hlen, hiff⟩ := ih (offset + (chunkAt data offset).length) (by omega)
      have hhead : (render (chunkAt data offset)).length ≤ (chunkAt data offset).length :=
        render_length (by omega)
      have hnext : ∀ k, chunkAt data (offset + (chunkAt data offset).length + 64 * k) =
          chunkAt data (offset + 64 * (k + 1)) := by
        intro k
        by_cases hfull : (chunkAt data offset).length = 64
        · rw [hfull, Nat.mul_succ, Nat.add_assoc, Nat.add_comm 64]
        · rw [chunkAt_end (by omega), chunkAt_end (by omega)]
      rw [catLoop_next file (Nat.lt_of_not_le hend), drop_chunkAt data offset, List.flatten_cons]
      refine ⟨?_, ?_⟩
      · rw [List.length_append, List.length_append]
        exact Nat.add_le_add hhead hlen
      · rw [append_eq_append_of_le hhead hlen, render_eq, hiff]
        constructor
        · rintro ⟨hfirst, hrest⟩ k
          cases k with
          | zero => exact hfirst
          | succ k => exact hnext k ▸ hrest k
        · intro hall
          exact ⟨hall 0, fun k => (hnext k).symm ▸ hall (k + 1)⟩

end File

/-- `cat` prints a file exactly when each of its 64-byte chunks is text by itself,
so that no character lies across two of them. Without a name it asks for one. -/
theorem cat_faithful (found : Fs.lookup E name = some idx)
    (file : E.files[idx]? = some (name, data)) :
    (cat E name).flatten = data ↔ if name = [] then data = ascii "  usage: cat FILE\n"
      else ∀ k, isUtf8 (chunkAt data (64 * k)) = true := by
  unfold cat
  split
  · rw [List.flatten_cons, List.flatten_nil, List.append_nil]
    exact eq_comm
  · rw [found]
    have h := (catLoop_exact file data.length 0 (by omega)).2
    simp only [Nat.zero_add, List.drop_zero] at h
    exact h

theorem cat_faithful_motd : ∃ data, Fs.lookup smallEnv (ascii "motd") = some 0 ∧
    smallEnv.files[0]? = some (ascii "motd", data) ∧
    (cat smallEnv (ascii "motd")).flatten = data := by
  have hfile : smallEnv.files[0]? =
      some (ascii "motd", ascii "welcome to osmium -- a RISC-V kernel in Rust\n") := rfl
  refine ⟨_, by decide, hfile, (cat_faithful (by decide) hfile).mpr ?_⟩
  rw [if_neg (by decide)]
  rintro (_ | k)
  · exact isUtf8_ascii "welcome to osmium -- a RISC-V kernel in Rust\n"
  · rw [chunkAt_end (Nat.le_trans (by decide : _ ≤ 64) (by omega))]
    exact isUtf8_nil

/-- A text of 65 bytes whose last character, of two bytes, starts with the last
byte of the first chunk. -/
def note : List UInt8 := List.replicate 63 97 ++ [0xc3, 0xa9]

theorem note_fits : ∀ f ∈ [(ascii "note", note)], f.2.length < 2 ^ 63 := by decide

/-- A system with that text as its only file. -/
def noteEnv : Env := { smallEnv with files := [(ascii "note", note)], files_fit := note_fits }

/-- A letter in front changes nothing. -/
theorem isUtf8_letter (bytes : List UInt8) : isUtf8 (97 :: bytes) = isUtf8 bytes := by
  have happ : (⟨(97 :: bytes).toArray⟩ : ByteArray) = ['a'].utf8Encode ++ ⟨bytes.toArray⟩ := by
    ext1
    simp
    rfl
  unfold isUtf8
  rw [Bool.eq_iff_iff, ByteArray.validateUTF8_eq_true_iff, ByteArray.validateUTF8_eq_true_iff, happ,
    ByteArray.isValidUTF8_utf8Encode_singleton_append_iff]

theorem isUtf8_letters (n : Nat) (bytes : List UInt8) :
    isUtf8 (List.replicate n 97 ++ bytes) = isUtf8 bytes := by
  induction n with
  | zero => rfl
  | succ n ih => exact (isUtf8_letter _).trans ih

theorem render_broken (h : isUtf8 chunk = false) : render chunk = ascii "?" := by
  unfold render
  rw [h]
  rfl

/-- The text is printed as two question marks. -/
theorem cat_garbles : isUtf8 note = true ∧ Fs.lookup noteEnv (ascii "note") = some 0 ∧
    noteEnv.files[0]? = some (ascii "note", note) ∧
    cat noteEnv (ascii "note") = [ascii "?", ascii "?"] ∧
    (cat noteEnv (ascii "note")).flatten ≠ note := by
  have hfile : noteEnv.files[0]? = some (ascii "note", note) := rfl
  have hfound : Fs.lookup noteEnv (ascii "note") = some 0 := by decide
  have htext : isUtf8 note = true := by
    refine (isUtf8_letters 63 _).trans ?_
    unfold isUtf8
    rw [ByteArray.validateUTF8_eq_true_iff]
    exact ⟨[Char.ofNat 233], by decide⟩
  have hfirst : render (chunkAt note 0) = ascii "?" := by
    refine render_broken ((isUtf8_letters 63 [0xc3]).trans ?_)
    unfold isUtf8
    rw [ByteArray.validateUTF8, ByteArray.validateUTF8.go]
    decide
  have hlast : render (chunkAt note 64) = ascii "?" := by
    refine render_broken ?_
    show isUtf8 [0xa9] = false
    unfold isUtf8
    rw [ByteArray.validateUTF8, ByteArray.validateUTF8.go]
    decide
  have hcat : cat noteEnv (ascii "note") = [ascii "?", ascii "?"] := by
    unfold cat
    rw [if_neg (by decide), hfound]
    dsimp only
    rw [catLoop_next hfile (by decide), hfirst, catLoop_next hfile (by decide)]
    show _ :: render (chunkAt note 64) :: _ = _
    rw [hlast, catLoop_end hfile (by decide)]
  refine ⟨htext, hfound, hfile, hcat, ?_⟩
  rw [hcat]
  decide

end Osmium.Shell
