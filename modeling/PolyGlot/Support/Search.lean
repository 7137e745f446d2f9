import Mathlib.Tactic

set_option autoImplicit false

/-! # Depth-first search with a set of visited nodes

`Visits next todo v v'` says that a search which has visited `v` and then enters
the nodes of `todo` one after the other, each unless it was visited before, and
from each node the nodes `next` names, ends with `v'` visited.
-/
namespace Search

variable {α : Type*} [DecidableEq α]

inductive Visits (next : α → List α) : List α → Finset α → Finset α → Prop
  | nil {v : Finset α} : Visits next [] v v
  | seen {a : α} {as : List α} {v v' : Finset α} : a ∈ v → Visits next as v v' → Visits next (a :: as) v v'
  | enter {a : α} {as : List α} {v v₁ v₂ : Finset α} : a ∉ v → Visits next (next a) (insert a v) v₁ →
      Visits next as v₁ v₂ → Visits next (a :: as) v v₂

def Reaches (next : α → List α) : α → α → Prop := Relation.ReflTransGen fun a b => b ∈ next a

variable {next : α → List α} {todo : List α} {v v' : Finset α} {a x : α}

theorem Visits.subset (h : Visits next todo v v') : v ⊆ v' := by
  induction h with
  | nil => exact Finset.Subset.refl _
  | seen _ _ ih => exact ih
  | enter _ _ _ ih ihs => exact ((Finset.subset_insert _ _).trans ih).trans ihs

theorem Visits.mem (h : Visits next todo v v') : ∀ b ∈ todo, b ∈ v' := by
  induction h with
  | nil => simp
  | seen ha h ih =>
    intro b hb
    rcases List.mem_cons.mp hb with rfl | hb
    · exact h.subset ha
    · exact ih b hb
  | enter ha h hs ih ihs =>
    intro b hb
    rcases List.mem_cons.mp hb with rfl | hb
    · exact hs.subset (h.subset (Finset.mem_insert_self ..))
    · exact ihs b hb

/-- From a node that the search entered, every next node was visited. -/
theorem Visits.closed (h : Visits next todo v v') : ∀ y ∈ v', y ∉ v → ∀ z ∈ next y, z ∈ v' := by
  induction h with
  | nil => exact fun y hy hnot => absurd hy hnot
  | seen _ _ ih => exact ih
  | enter ha h hs ih ihs =>
    rename_i a as v v₁ v₂
    intro y hy hnot z hz
    by_cases hy₁ : y ∈ v₁
    · apply hs.subset
      by_cases hya : y = a
      · exact h.mem z (hya ▸ hz)
      · exact ih y hy₁ (by simp [hya, hnot]) z hz
    · exact ihs y hy hy₁ z hz

theorem Visits.reached (h : Visits next todo v v') :
    ∀ y ∈ v', y ∉ v → ∃ b ∈ todo, Reaches next b y := by
  induction h with
  | nil => exact fun y hy hnot => absurd hy hnot
  | seen _ _ ih =>
    intro y hy hnot
    obtain ⟨b,hb,hreach⟩ := ih y hy hnot
    exact ⟨b,List.mem_cons_of_mem _ hb,hreach⟩
  | enter ha h hs ih ihs =>
    rename_i a as v v₁ v₂
    intro y hy hnot
    by_cases hy₁ : y ∈ v₁
    · refine ⟨a,List.mem_cons_self ..,?_⟩
      by_cases hya : y = a
      · subst hya
        exact Relation.ReflTransGen.refl
      · obtain ⟨b,hb,hreach⟩ := ih y hy₁ (by simp [hya, hnot])
        exact Relation.ReflTransGen.head hb hreach
    · obtain ⟨b,hb,hreach⟩ := ihs y hy hy₁
      exact ⟨b,List.mem_cons_of_mem _ hb,hreach⟩

/-- A search that starts with nothing visited visits what can be reached. -/
theorem Visits.mem_iff (h : Visits next [a] ∅ v') : x ∈ v' ↔ Reaches next a x := by
  constructor
  · intro hx
    obtain ⟨b,hb,hreach⟩ := h.reached x hx (Finset.notMem_empty _)
    rwa [List.mem_singleton.mp hb] at hreach
  · intro hreach
    induction hreach with
    | refl => exact h.mem a (List.mem_cons_self ..)
    | tail _ hz ih => exact h.closed _ ih (Finset.notMem_empty _) _ hz

theorem Visits.append {as bs : List α} {v₁ v₂ : Finset α} (h : Visits next as v v₁) (h' : Visits next bs v₁ v₂) :
    Visits next (as ++ bs) v v₂ := by
  induction h with
  | nil => exact h'
  | seen ha _ ih => exact .seen ha (ih h')
  | enter ha h _ _ ihs => exact .enter ha h (ihs h')

/-- Entering a node leaves one fewer to enter. -/
theorem card_unvisited_insert {U : Finset α} (ha : a ∈ U) (hv : a ∉ v) :
    (U \ insert a v).card < (U \ v).card := by
  apply Finset.card_lt_card
  rw [Finset.ssubset_iff_of_subset (Finset.sdiff_subset_sdiff (Finset.Subset.refl _) (Finset.subset_insert ..))]
  exact ⟨a,by simp [ha, hv],by simp⟩

theorem card_unvisited_le {U : Finset α} (h : v ⊆ v') : (U \ v').card ≤ (U \ v).card :=
  Finset.card_le_card (Finset.sdiff_subset_sdiff (Finset.Subset.refl _) h)

end Search
