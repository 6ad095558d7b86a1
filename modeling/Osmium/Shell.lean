import Osmium.Syscall

namespace Osmium

theorem Fs.readAt_short (h : (Fs.readAt E idx offset cap).length ≠ 0) :
    offset < ((E.files[idx]?).map (fun f => f.2.length)).getD 0 := by
  unfold Fs.readAt at h
  cases hf : E.files[idx]? with
  | none =>
    rw [hf] at h
    exact absurd rfl h
  | some f =>
    rw [hf] at h
    show offset < f.2.length
    have hlen : ((f.2.drop offset).take cap).length ≠ 0 := h
    rw [List.length_take, List.length_drop] at hlen
    omega

namespace Shell

/-- Does `core::str::from_utf8` accept the bytes? -/
def isUtf8 (bytes : List UInt8) : Bool := ByteArray.validateUTF8 ⟨bytes.toArray⟩

/-- One chunk of a file as `cat` prints it. -/
def render (chunk : List UInt8) : List UInt8 := if isUtf8 chunk then chunk else ascii "?"

/-- The loop of `cat`: what it prints from an offset on. It ends at the end of
the file, where `read_at` copies nothing. -/
def catLoop (E : Env) (idx offset : Nat) : List (List UInt8) :=
  let chunk := Fs.readAt E idx offset 64
  if chunk.length = 0 then [] else render chunk :: catLoop E idx (offset + chunk.length)
termination_by ((E.files[idx]?).map (fun f => f.2.length)).getD 0 - offset
decreasing_by
  rename_i h
  exact Nat.sub_lt_sub_left (Fs.readAt_short h) (Nat.lt_add_of_pos_right (Nat.pos_of_ne_zero h))

/-- The strings that `cat` prints, in order. -/
def cat (E : Env) (name : List UInt8) : List (List UInt8) :=
  if name = [] then [ascii "  usage: cat FILE\n"]
  else match Fs.lookup E name with
    | none => [ascii "  cat: no such file '" ++ name ++ ascii "'\n"]
    | some idx => catLoop E idx 0

end Shell
end Osmium
