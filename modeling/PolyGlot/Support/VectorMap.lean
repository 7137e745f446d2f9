import Mathlib.Tactic

set_option autoImplicit false

/-! # Ordered maps of vectors

A map whose entries are vectors, where `m[k].push_back(a)` makes the entry when
it is not there. A map is `Filled` when no entry is an empty vector: its keys
are then the keys with values.
-/

abbrev VectorMap (κ α : Type) [Ord κ] := Std.TreeMap κ (List α)

namespace VectorMap

variable {κ α : Type} [Ord κ]

def push (m : VectorMap κ α) (k : κ) (a : α) : VectorMap κ α :=
  m.alter k fun old => some (old.getD [] ++ [a])

def vals (m : VectorMap κ α) (k : κ) : List α := m[k]?.getD []

def restrict [DecidableEq κ] (m : VectorMap κ α) (s : Finset κ) : VectorMap κ α :=
  m.filter fun k _ => decide (k ∈ s)

def Filled (m : VectorMap κ α) : Prop := ∀ k : κ, m[k]? ≠ some []

theorem toList_ne_nil {β : Type} {t : Std.TreeMap κ β} (h : t.size ≠ 0) : t.toList ≠ [] := by
  rw [← List.length_pos_iff, Std.TreeMap.length_toList]
  exact Nat.pos_of_ne_zero h

variable [Std.TransOrd κ] {m : VectorMap κ α} {k k' : κ} {a b : α}

@[simp] theorem vals_empty : vals (∅ : VectorMap κ α) k = [] := by simp [vals]

theorem filled_empty : Filled (∅ : VectorMap κ α) := by
  intro k
  simp

theorem Filled.mem_iff (hm : Filled m) : k ∈ m ↔ ∃ a, a ∈ m.vals k := by
  have hk := hm k
  rw [Std.TreeMap.mem_iff_isSome_getElem?, vals]
  cases h : m[k]? with
  | none => simp
  | some l => simpa using List.exists_mem_of_ne_nil l fun hl => hk (by rw [h, hl])

theorem size_ne_zero_iff {β : Type} {t : Std.TreeMap κ β} : t.size ≠ 0 ↔ ∃ k, k ∈ t := by
  rw [← Std.TreeMap.isEmpty_eq_false_iff_exists_mem, Std.TreeMap.isEmpty_eq_size_eq_zero]
  simp

variable [Std.LawfulEqOrd κ]

theorem mem_entries_iff {l : List α} : (k, l) ∈ m.toList ↔ m[k]? = some l :=
  Std.TreeMap.mem_toList_iff_getElem?_eq_some

theorem vals_of_entry {l : List α} (h : (k, l) ∈ m.toList) : m.vals k = l := by
  rw [vals, mem_entries_iff.mp h]
  rfl

theorem mem_of_entry {e : κ × List α} (h : e ∈ m.toList) : e.1 ∈ m := by
  rw [Std.TreeMap.mem_iff_isSome_getElem?, mem_entries_iff.mp h]
  rfl

theorem exists_entry (h : a ∈ m.vals k) : (k, m.vals k) ∈ m.toList := by
  unfold vals at h ⊢
  cases hk : m[k]? with
  | none => simp [hk] at h
  | some l => exact mem_entries_iff.mpr hk

theorem mem_of_vals (h : a ∈ m.vals k) : k ∈ m := mem_of_entry (exists_entry h)

theorem toList_nodup {β : Type} (t : Std.TreeMap κ β) : t.toList.Nodup := by
  apply t.distinct_keys_toList.imp
  intro a b hab
  rintro rfl
  exact hab Std.ReflCmp.compare_self

/-- Maps with the same entries list them in some order. -/
theorem toList_perm {β : Type} {t t' : Std.TreeMap κ β} (h : ∀ k : κ, t[k]? = t'[k]?) :
    t.toList.Perm t'.toList := by
  rw [List.perm_ext_iff_of_nodup (toList_nodup t) (toList_nodup t')]
  intro e
  rw [Std.TreeMap.mem_toList_iff_getElem?_eq_some (k := e.1) (v := e.2), h,
    ← Std.TreeMap.mem_toList_iff_getElem?_eq_some]

theorem size_eq {β : Type} {t t' : Std.TreeMap κ β} (h : ∀ k : κ, t[k]? = t'[k]?) : t.size = t'.size := by
  rw [← Std.TreeMap.length_toList, ← Std.TreeMap.length_toList, (toList_perm h).length_eq]

def bag {β γ : Type} (f : κ → β → List γ) (t : Std.TreeMap κ β) : List γ := t.toList.flatMap fun e => f e.1 e.2

theorem mem_bag {β γ : Type} {f : κ → β → List γ} {t : Std.TreeMap κ β} {b : β} {c : γ} (hb : t[k]? = some b)
    (hc : c ∈ f k b) : c ∈ bag f t :=
  List.mem_flatMap.mpr ⟨(k, b),Std.TreeMap.mem_toList_iff_getElem?_eq_some.mpr hb,hc⟩

/-- A search through all values finds the first one under the smallest key. -/
theorem findSome?_eq_some_iff [LT κ] (hlt : ∀ a b : κ, compare a b = .lt ↔ a < b) {p : α → Bool} :
    (m.toList.findSome? fun e => e.2.find? p) = some a ↔
      ∃ k, (m.vals k).find? p = some a ∧ ∀ k' < k, (m.vals k').find? p = none := by
  have hsorted := m.ordered_keys_toList
  constructor
  · intro h
    obtain ⟨before,⟨k,l⟩,after,heq,hfound,hnone⟩ := List.findSome?_eq_some_iff.mp h
    have hk : m.vals k = l := vals_of_entry (heq ▸ List.mem_append_right _ List.mem_cons_self)
    refine ⟨k,by rw [hk]; exact hfound,?_⟩
    intro k' hk'
    rw [List.find?_eq_none]
    intro b hb
    have hentry := heq ▸ exists_entry hb
    rw [heq, List.pairwise_append, List.pairwise_cons] at hsorted
    rcases List.mem_append.mp hentry with hmem | hmem
    · exact List.find?_eq_none.mp (hnone _ hmem) b hb
    · rcases List.mem_cons.mp hmem with hsame | hmem
      · cases hsame
        exact absurd ((hlt _ _).mpr hk') (by simp [Std.ReflCmp.compare_self])
      · have hafter := hsorted.2.1.1 _ hmem
        have hback := (hlt _ _).mpr hk'
        have hswap : compare k k' = (compare k' k).swap := Std.OrientedCmp.eq_swap
        rw [hswap, hback] at hafter
        cases hafter
  · rintro ⟨k,hfound,hnone⟩
    obtain ⟨before,after,heq⟩ := List.append_of_mem (exists_entry (List.mem_of_find?_eq_some hfound))
    refine List.findSome?_eq_some_iff.mpr ⟨before,_,after,heq,hfound,?_⟩
    rintro ⟨k',l⟩ hmem
    have hk' : m.vals k' = l := vals_of_entry (heq ▸ List.mem_append_left _ hmem)
    rw [heq, List.pairwise_append] at hsorted
    have hless := (hlt _ _).mp (hsorted.2.2 _ hmem _ List.mem_cons_self)
    dsimp only
    rw [← hk']
    exact hnone k' hless

theorem of_mem_insert {β : Type} {t : Std.TreeMap κ β} {b : β} (h : k' ∈ t.insert k b) : k' ∈ t ∨ k' = k := by
  rw [Std.TreeMap.mem_insert, Std.LawfulEqCmp.compare_eq_iff_eq] at h
  rcases h with h | h
  · exact .inr h.symm
  · exact .inl h

variable [DecidableEq κ]

theorem getElem?_insert_ite {β : Type} {t : Std.TreeMap κ β} {b : β} :
    (t.insert k b)[k']? = if k = k' then some b else t[k']? := by
  rw [Std.TreeMap.getElem?_insert]
  by_cases h : k = k'
  · rw [if_pos h, if_pos (Std.LawfulEqCmp.compare_eq_iff_eq.mpr h)]
  · rw [if_neg h, if_neg (mt Std.LawfulEqCmp.compare_eq_iff_eq.mp h)]

theorem getElem?_erase_ite {β : Type} {t : Std.TreeMap κ β} : (t.erase k)[k']? = if k = k' then none else t[k']? := by
  rw [Std.TreeMap.getElem?_erase]
  by_cases h : k = k'
  · rw [if_pos h, if_pos (Std.LawfulEqCmp.compare_eq_iff_eq.mpr h)]
  · rw [if_neg h, if_neg (mt Std.LawfulEqCmp.compare_eq_iff_eq.mp h)]

theorem bag_perm_erase {β γ : Type} (f : κ → β → List γ) (t : Std.TreeMap κ β) (k : κ) :
    (bag f t).Perm (t[k]?.elim [] (f k) ++ bag f (t.erase k)) := by
  cases h : t[k]? with
  | none =>
    have hsame : ∀ k' : κ, t[k']? = (t.erase k)[k']? := by
      intro k'
      rw [getElem?_erase_ite]
      split
      · rename_i hk
        rw [← hk, h]
      · rfl
    exact (toList_perm hsame).flatMap_right _
  | some b =>
    have hperm : t.toList.Perm ((k, b) :: (t.erase k).toList) := by
      have hnew : (k, b) ∉ (t.erase k).toList := by
        rw [Std.TreeMap.mem_toList_iff_getElem?_eq_some, getElem?_erase_ite, if_pos rfl]
        simp
      rw [List.perm_ext_iff_of_nodup (toList_nodup t) (List.nodup_cons.mpr ⟨hnew,toList_nodup _⟩)]
      rintro ⟨k',b'⟩
      rw [List.mem_cons, Std.TreeMap.mem_toList_iff_getElem?_eq_some, Std.TreeMap.mem_toList_iff_getElem?_eq_some,
        getElem?_erase_ite, Prod.mk.injEq]
      by_cases hk : k = k'
      · subst hk
        simp [h, eq_comm]
      · simp [hk, Ne.symm hk]
    exact hperm.flatMap_right _

/-- One entry is put into a map, or replaced, and gives `c` more than before. -/
theorem bag_set {β γ : Type} {f : κ → β → List γ} {t t' : Std.TreeMap κ β} {b : β} {c : List γ}
    (ht : ∀ k' : κ, t'[k']? = if k = k' then some b else t[k']?) (hf : (f k b).Perm (c ++ t[k]?.elim [] (f k))) :
    (bag f t').Perm (c ++ bag f t) := by
  have hsame : ∀ k' : κ, (t'.erase k)[k']? = (t.erase k)[k']? := by
    intro k'
    rw [getElem?_erase_ite, getElem?_erase_ite, ht]
    split <;> rfl
  have hrest : (bag f (t'.erase k)).Perm (bag f (t.erase k)) := (toList_perm hsame).flatMap_right _
  calc bag f t'
    List.Perm _ (t'[k]?.elim [] (f k) ++ bag f (t'.erase k)) := bag_perm_erase f t' k
    List.Perm _ (f k b ++ bag f (t.erase k)) := by rw [ht, if_pos rfl]; exact hrest.append_left _
    List.Perm _ ((c ++ t[k]?.elim [] (f k)) ++ bag f (t.erase k)) := hf.append_right _
    List.Perm _ (c ++ bag f t) := by
      rw [List.append_assoc]
      exact (bag_perm_erase f t k).symm.append_left c

theorem getElem?_push : (m.push k a)[k']? = if k = k' then some (m.vals k ++ [a]) else m[k']? := by
  rw [push, Std.TreeMap.getElem?_alter]
  by_cases h : k = k'
  · rw [if_pos h, if_pos (Std.LawfulEqCmp.compare_eq_iff_eq.mpr h)]
    rfl
  · rw [if_neg h, if_neg (mt Std.LawfulEqCmp.compare_eq_iff_eq.mp h)]

theorem mem_push : k' ∈ m.push k a ↔ k = k' ∨ k' ∈ m := by
  rw [Std.TreeMap.mem_iff_isSome_getElem?, getElem?_push, Std.TreeMap.mem_iff_isSome_getElem?]
  by_cases h : k = k' <;> simp [h]

theorem vals_push : (m.push k a).vals k' = if k = k' then m.vals k' ++ [a] else m.vals k' := by
  unfold vals
  rw [getElem?_push]
  by_cases h : k = k'
  · subst h
    simp [vals]
  · simp [h]

theorem mem_vals_push : b ∈ (m.push k a).vals k' ↔ b ∈ m.vals k' ∨ k = k' ∧ b = a := by
  unfold vals
  rw [getElem?_push]
  by_cases h : k = k'
  · subst h
    simp [vals]
  · simp [h]

theorem Filled.push (hm : Filled m) : Filled (m.push k a) := by
  intro k'
  rw [getElem?_push]
  by_cases h : k = k'
  · simp [h]
  · rw [if_neg h]
    exact hm k'

theorem foldl_iff {β γ : Type} {f : β → γ → β} {p : β → Prop} {q : γ → Prop} (h : ∀ b c, p (f b c) ↔ p b ∨ q c)
    (l : List γ) (b : β) : p (l.foldl f b) ↔ p b ∨ ∃ c ∈ l, q c := by
  induction l generalizing b with
  | nil => simp
  | cons c l ih => simp only [List.foldl_cons, ih, h, List.mem_cons, exists_eq_or_imp, or_assoc]

variable {s : Finset κ}

theorem getElem?_restrict : (m.restrict s)[k]? = if k ∈ s then m[k]? else none := by
  rw [restrict, Std.TreeMap.getElem?_filter']
  cases m[k]? with
  | none => simp
  | some l => simp [Option.filter]

theorem vals_restrict : (m.restrict s).vals k = if k ∈ s then m.vals k else [] := by
  rw [vals, getElem?_restrict]
  split <;> rfl

theorem mem_restrict : k ∈ m.restrict s ↔ k ∈ m ∧ k ∈ s := by
  rw [Std.TreeMap.mem_iff_isSome_getElem?, getElem?_restrict, Std.TreeMap.mem_iff_isSome_getElem?]
  by_cases h : k ∈ s <;> simp [h]

theorem mem_vals_restrict : a ∈ (m.restrict s).vals k ↔ a ∈ m.vals k ∧ k ∈ s := by
  rw [vals_restrict]
  by_cases h : k ∈ s <;> simp [h]

theorem mem_entries_restrict {l : List α} : (k, l) ∈ (m.restrict s).toList ↔ k ∈ s ∧ (k, l) ∈ m.toList := by
  rw [mem_entries_iff, mem_entries_iff, getElem?_restrict]
  split <;> simp [*]

theorem Filled.restrict (hm : Filled m) : Filled (m.restrict s) := by
  intro k
  rw [getElem?_restrict]
  split
  · exact hm k
  · simp

end VectorMap
