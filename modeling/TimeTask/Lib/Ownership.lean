import Mathlib.Logic.Basic

/-! Handles and their owners: what is owned is open, and has one owner. -/
namespace TimeTask.Lib

variable {O H : Type*}

structure Owned (owns : O → H → Prop) (isOpen : H → Prop) : Prop where
  isOpen : ∀ o h, owns o h → isOpen h
  apart : ∀ o p h, owns o h → owns p h → o = p

namespace Owned

variable {owns owns' : O → H → Prop} {isOpen isOpen' : H → Prop}

theorem sub (k : Owned owns isOpen) (ho : ∀ o h, owns' o h → owns o h)
    (hi : ∀ h, isOpen h → isOpen' h) : Owned owns' isOpen' :=
  ⟨fun o h hoh => hi h (k.isOpen o h (ho o h hoh)),
    fun o p h hoh hph => k.apart o p h (ho o h hoh) (ho p h hph)⟩

/-- `o₀` gets the new handle `h₀`. -/
theorem take (k : Owned owns isOpen) (o₀ : O) {h₀ : H} (hnew : ¬ isOpen h₀)
    (ho : ∀ o h, owns' o h → owns o h ∨ (o = o₀ ∧ h = h₀)) (hi : ∀ h, isOpen h → isOpen' h)
    (h₀i : isOpen' h₀) : Owned owns' isOpen' := by
  have hne : ∀ o h, owns o h → h ≠ h₀ := fun o h hoh he => hnew (he ▸ k.isOpen o h hoh)
  refine ⟨fun o h hoh => ?_, fun o p h hoh hph => ?_⟩
  · cases ho o h hoh with
    | inl hold => exact hi h (k.isOpen o h hold)
    | inr heq => exact heq.2 ▸ h₀i
  · cases ho o h hoh with
    | inl hold =>
      cases ho p h hph with
      | inl hpold => exact k.apart o p h hold hpold
      | inr heq => exact absurd heq.2 (hne o h hold)
    | inr heq =>
      cases ho p h hph with
      | inl hpold => exact absurd heq.2 (hne p h hpold)
      | inr hpeq => exact heq.1.trans hpeq.1.symm

theorem close (k : Owned owns isOpen) {o₀ : O} {h₀ : H} (h0 : owns o₀ h₀)
    (ho : ∀ o h, owns' o h → owns o h ∧ o ≠ o₀) (hi : ∀ h, h ≠ h₀ → isOpen h → isOpen' h) :
    Owned owns' isOpen' := by
  refine ⟨fun o h hoh => ?_, fun o p h hoh hph => k.apart o p h (ho o h hoh).1 (ho p h hph).1⟩
  obtain ⟨hold, hne⟩ := ho o h hoh
  exact hi h (fun he => hne (k.apart o o₀ h₀ (he ▸ hold) h0)) (k.isOpen o h hold)

/-- What `p` owned is passed on to `q`, which owned nothing else. -/
theorem pass (k : Owned owns isOpen) {p q : O}
    (ho : ∀ o h, owns' o h → (o ≠ p ∧ o ≠ q ∧ owns o h) ∨ (o = q ∧ owns p h)) : Owned owns' isOpen := by
  have hback : ∀ o h, owns' o h → ∃ o', owns o' h ∧ (o' = p ↔ o = q) ∧ (o ≠ q → o' = o) := by
    intro o h hoh
    cases ho o h hoh with
    | inl hold => exact ⟨o, hold.2.2, iff_of_false hold.1 hold.2.1, fun _ => rfl⟩
    | inr heq => exact ⟨p, heq.2, iff_of_true rfl heq.1, fun hne => absurd heq.1 hne⟩
  refine ⟨fun o h hoh => ?_, fun o o' h hoh hoh' => ?_⟩
  · obtain ⟨x, hx, _⟩ := hback o h hoh
    exact k.isOpen x h hx
  · obtain ⟨x, hx, hxq, hxo⟩ := hback o h hoh
    obtain ⟨y, hy, hyq, hyo⟩ := hback o' h hoh'
    have hxy := k.apart x y h hx hy
    by_cases hq : o = q
    · exact hq.trans (hyq.mp (hxy ▸ hxq.mpr hq)).symm
    · have hq' : o' ≠ q := fun he => hq (hxq.mp (hxy ▸ hyq.mpr he))
      rw [← hxo hq, ← hyo hq', hxy]

end Owned

end TimeTask.Lib
