import Mathlib.Tactic

set_option autoImplicit false

/-! # Conditions along a run

A run takes a list of inputs from a state. It ends early at an input that has no
next state.
-/

variable {σ ι : Type*}

def Along (next : σ → ι → Option σ) (P : σ → ι → Prop) : List ι → σ → Prop
  | [], _ => True
  | i :: is, s => P s i ∧ ∀ s', next s i = some s' → Along next P is s'

namespace Along

variable {next : σ → ι → Option σ} {P Q : σ → ι → Prop} {is : List ι} {s : σ}

theorem and : Along next (fun s i => P s i ∧ Q s i) is s ↔ Along next P is s ∧ Along next Q is s := by
  induction is generalizing s with
  | nil => simp [Along]
  | cons i is ih =>
    simp only [Along, ih]
    constructor
    · rintro ⟨⟨hp,hq⟩,h⟩
      exact ⟨⟨hp,fun s' hs' => (h s' hs').1⟩,hq,fun s' hs' => (h s' hs').2⟩
    · rintro ⟨⟨hp,h⟩,hq,h'⟩
      exact ⟨⟨hp,hq⟩,fun s' hs' => ⟨h s' hs',h' s' hs'⟩⟩

theorem cons_iff {i : ι} {s' : σ} (h : next s i = some s') : Along next P (i :: is) s ↔ P s i ∧ Along next P is s' := by
  constructor
  · rintro ⟨hp,hrest⟩
    exact ⟨hp,hrest s' h⟩
  · rintro ⟨hp,hrest⟩
    refine ⟨hp,fun s'' h' => ?_⟩
    rw [h] at h'
    cases h'
    exact hrest

/-- An invariant that the steps with `P` keep lets `Q` be shown at each of them. -/
theorem of_invariant {I : σ → Prop} (hkeep : ∀ s i s', I s → P s i → next s i = some s' → I s')
    (himp : ∀ s i, I s → P s i → Q s i) (hs : I s) (h : Along next P is s) : Along next Q is s := by
  induction is generalizing s with
  | nil => exact h
  | cons i is ih => exact ⟨himp s i hs h.1,fun s' hs' => ih (hkeep s i s' hs h.1 hs') (h.2 s' hs')⟩

end Along
