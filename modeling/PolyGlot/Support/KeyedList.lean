import Mathlib.Data.List.Perm.Basic
import Mathlib.Data.Finset.Insert
import Mathlib.Data.Finset.Dedup
import Mathlib.Tactic

set_option autoImplicit false

/-! # Lists beside the sets of their keys

An unordered vector from which an entry is removed by moving the last one into
its place, kept in step with the set of the keys of its entries; and a list
without the entries whose key was seen before.
-/
namespace KeyedList

variable {α β κ : Type*}

def swapPop (v : List α) (idx : ℕ) : List α :=
  match v.getLast? with
  | none => v
  | some back => (v.set idx back).dropLast

theorem swapPop_concat (v : List α) (back : α) (idx : ℕ) :
    swapPop (v ++ [back]) idx = ((v ++ [back]).set idx back).dropLast := by
  simp [swapPop]

theorem swapPop_perm {v : List α} {idx : ℕ} (h : idx < v.length) : (v[idx] :: swapPop v idx).Perm v := by
  obtain ⟨init,back,rfl⟩ : ∃ init back, v = init ++ [back] :=
    ⟨v.dropLast,v.getLast (List.ne_nil_of_length_pos (by omega)),(List.dropLast_append_getLast _).symm⟩
  rw [swapPop_concat]
  rw [List.length_append, List.length_singleton] at h
  by_cases hlast : idx = init.length
  · subst hlast
    rw [List.set_append_right _ _ le_rfl]
    simp only [Nat.sub_self, List.set_cons_zero, List.dropLast_concat, List.getElem_concat_length]
    exact (List.perm_append_singleton back init).symm
  · have hlt : idx < init.length := by omega
    rw [List.set_append_left _ _ hlt, List.dropLast_concat, List.getElem_append_left hlt]
    have hset := List.set_perm_cons_eraseIdx hlt back
    have herase := List.getElem_cons_eraseIdx_perm hlt
    calc init[idx] :: init.set idx back
      List.Perm _ (init[idx] :: back :: init.eraseIdx idx) := hset.cons _
      List.Perm _ (back :: init[idx] :: init.eraseIdx idx) := List.Perm.swap ..
      List.Perm _ (back :: init) := herase.cons _
      List.Perm _ (init ++ [back]) := (List.perm_append_singleton back init).symm

theorem swapPop_map (f : α → β) (v : List α) (idx : ℕ) : swapPop (v.map f) idx = (swapPop v idx).map f := by
  rw [swapPop, swapPop, List.getLast?_map]
  cases v.getLast? with
  | none => rfl
  | some back => rw [Option.map_some, List.map_dropLast, List.map_set]

theorem mem_of_mem_swapPop {v : List α} {idx : ℕ} (h : idx < v.length) {a : α} (ha : a ∈ swapPop v idx) : a ∈ v :=
  (swapPop_perm h).subset (List.mem_cons_of_mem _ ha)

variable [DecidableEq κ]

/-- At most `cap` entries with different keys, and `s` is the set of the keys. -/
structure Tracked (key : α → κ) (cap : ℕ) (v : List α) (s : Finset κ) : Prop where
  size : v.length ≤ cap
  nodup : (v.map key).Nodup
  keys : s = (v.map key).toFinset

variable {key : α → κ} {cap : ℕ} {v : List α} {s : Finset κ}

theorem Tracked.empty : Tracked key cap [] ∅ := ⟨Nat.zero_le _,List.nodup_nil,rfl⟩

theorem Tracked.swapPop (h : Tracked key cap v s) {idx : ℕ} (hidx : idx < v.length) :
    Tracked key cap (swapPop v idx) (s.erase (key v[idx])) ∧ (KeyedList.swapPop v idx).length < v.length := by
  have hperm := swapPop_perm hidx
  have hlen := hperm.length_eq
  rw [List.length_cons] at hlen
  have hkeys : ((key v[idx]) :: (KeyedList.swapPop v idx).map key).Perm (v.map key) := hperm.map key
  have hnodup := (hkeys.nodup_iff).mpr h.nodup
  obtain ⟨hnew,hrest⟩ := List.nodup_cons.mp hnodup
  refine ⟨⟨by have hsize := h.size; omega,hrest,?_⟩,by omega⟩
  rw [h.keys, ← List.toFinset_eq_of_perm _ _ hkeys, List.toFinset_cons, Finset.erase_insert]
  rwa [List.mem_toFinset]

theorem Tracked.push (h : Tracked key cap v s) {a : α} (hlt : v.length < cap) (hnew : key a ∉ s) :
    Tracked key cap (v ++ [a]) (insert (key a) s) := by
  rw [h.keys, List.mem_toFinset] at hnew
  refine ⟨by rw [List.length_append, List.length_singleton]; omega,?_,?_⟩
  · rw [List.map_append, List.map_singleton, List.nodup_append]
    refine ⟨h.nodup,List.nodup_singleton _,fun k hk k' hk' heq => ?_⟩
    rw [List.mem_singleton] at hk'
    exact hnew (hk' ▸ heq ▸ hk)
  · rw [h.keys, List.map_append, List.toFinset_append, Finset.union_comm]
    rfl

def keepFirst (key : α → κ) (seen : Finset κ) : List α → List α
  | [] => []
  | a :: l => if key a ∈ seen then keepFirst key seen l else a :: keepFirst key (insert (key a) seen) l

variable {seen : Finset κ} {l l' : List α} {a : α}

theorem mem_keepFirst : a ∈ keepFirst key seen l ↔ key a ∉ seen ∧ l.find? (fun b => key b = key a) = some a := by
  induction l generalizing seen with
  | nil => simp [keepFirst]
  | cons b l ih =>
    rw [keepFirst, List.find?_cons]
    by_cases hb : key b ∈ seen
    · rw [if_pos hb, ih]
      by_cases heq : key b = key a
      · rw [heq] at hb
        simp [hb]
      · simp [heq]
    · rw [if_neg hb, List.mem_cons, ih, Finset.mem_insert, not_or]
      by_cases heq : key b = key a
      · rw [heq] at hb
        simp [heq, hb, eq_comm]
      · have hne : a ≠ b := fun h => heq (by rw [h])
        simp [heq, hne, Ne.symm heq]

theorem keepFirst_sublist (seen : Finset κ) (l : List α) : (keepFirst key seen l).Sublist l := by
  induction l generalizing seen with
  | nil => exact List.Sublist.slnil
  | cons b l ih =>
    rw [keepFirst]
    split
    · exact (ih seen).cons b
    · exact (ih _).cons_cons b

theorem keepFirst_nodup (seen : Finset κ) (l : List α) : ((keepFirst key seen l).map key).Nodup := by
  induction l generalizing seen with
  | nil => exact List.nodup_nil
  | cons b l ih =>
    rw [keepFirst]
    split
    · exact ih seen
    · rw [List.map_cons, List.nodup_cons]
      refine ⟨fun hmem => ?_,ih _⟩
      obtain ⟨a,ha,heq⟩ := List.mem_map.mp hmem
      exact (mem_keepFirst.mp ha).1 (heq ▸ Finset.mem_insert_self ..)

theorem keepFirst_append : keepFirst key seen (l ++ l') =
    keepFirst key seen l ++ keepFirst key (seen ∪ (l.map key).toFinset) l' := by
  induction l generalizing seen with
  | nil => simp [keepFirst]
  | cons b l ih =>
    rw [List.cons_append, keepFirst, keepFirst, List.map_cons, List.toFinset_cons]
    by_cases hb : key b ∈ seen
    · rw [if_pos hb, if_pos hb, ih, Finset.union_insert, Finset.insert_eq_self.mpr (Finset.mem_union_left _ hb)]
    · rw [if_neg hb, if_neg hb, ih, List.cons_append, Finset.union_insert, Finset.insert_union]

end KeyedList
