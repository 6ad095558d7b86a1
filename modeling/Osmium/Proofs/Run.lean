import Osmium.Proofs.Boot

namespace Osmium
open Lib Vm Control

variable {T : Type} {E : Env} {pool : PagePool E.allocStart} {s s' : Sys T}

/-- What holds in every state the kernel reaches: control is where its code says,
kernel threads run kernel code, and every page and block has one owner, apart
from the `lost` ones. -/
structure Sane (E : Env) (pool : PagePool E.allocStart) (lost : List Heap.Live) (s : Sys T) :
    Prop where
  control : Controlled s
  manned : Manned s
  room : Roomy s
  ledger : Ledger E pool lost s

namespace Sane

theorem in_stock (hp : s.proc j = some p) : Asset.proc p.toProcData ∈ stock E s := by
  obtain ⟨L, hslots, _⟩ := slots_change hp hp (fun _ _ => rfl)
  exact List.mem_append_left _ (hslots.mem_iff.mpr List.mem_cons_self)

theorem sound (h : Sane E pool lost s) (hp : s.proc j = some p) :
    Sound E s.kernelRoot p.toProcData :=
  h.ledger.roll.sound _ (List.mem_flatMap.mpr
    ⟨_, List.mem_append_right _ (in_stock hp), List.mem_cons_self⟩)

theorem step (h : Sane E pool lost s) (move : Step E s s') :
    ∃ leak, Sane E pool (leak ++ lost) s' ∧ Leaks s s' leak := by
  obtain ⟨S, lvl, top, hc⟩ := h.control
  obtain ⟨leak, hl, hleak⟩ := step_ledger hc h.manned h.room h.ledger move
  refine ⟨leak, ⟨?_, ?_, ?_, hl⟩, hleak⟩
  · exact step_controlled h.control (fun j q hq => (h.sound hq).page) move
  · exact step_manned hc h.manned (fun j p hp hu => (h.sound hp).seat hu) move
  · exact step_roomy h.room move

theorem boot (run : kmain E reserved m regs = .ok s) :
    ∃ res, Kalloc.reservedRange reserved = .ok res ∧
      Sane E (Kalloc.seedPool E.toLayout res) [] s := by
  obtain ⟨res, hres, hl⟩ := boot_ledger run
  exact ⟨res, hres, boot_controlled run, boot_manned run, boot_roomy run, hl⟩

end Sane

theorem reachable_sane (h : Reachable E reserved s) :
    ∃ res lost, Kalloc.reservedRange reserved = .ok res ∧
      Sane E (Kalloc.seedPool E.toLayout res) lost s := by
  induction h with
  | boot m regs run =>
    obtain ⟨res, hres, hs⟩ := Sane.boot run
    exact ⟨res, [], hres, hs⟩
  | step reach move ih =>
    obtain ⟨res, lost, hres, hs⟩ := ih
    obtain ⟨leak, hs', _⟩ := hs.step move
    exact ⟨res, leak ++ lost, hres, hs'⟩

theorem Reachable.controlled (h : Reachable E reserved s) : Controlled s := by
  obtain ⟨res, lost, _, hs⟩ := reachable_sane h
  exact hs.control

end Osmium
