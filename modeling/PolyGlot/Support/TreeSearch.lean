import PolyGlot.Support.TreePath

set_option autoImplicit false

/-! # Searches in a binary tree

The subtrees whose root is of a kind: all of them, and the outermost ones that a
search finds which does not go below what it found.
-/
namespace BinaryTree

variable {α β : Type*}

def occurrences (p : α → Bool) : BinaryTree α → List (BinaryTree α)
  | .nil => []
  | .node v l r => (if p v then [.node v l r] else []) ++ (occurrences p l ++ occurrences p r)

def outermost (p stop : α → Bool) : BinaryTree α → List (BinaryTree α)
  | .nil => []
  | .node v l r => if p v then [.node v l r] else if stop v then [] else outermost p stop l ++ outermost p stop r

def firstOutermost (p stop : α → Bool) (t : BinaryTree α) : BinaryTree α := (outermost p stop t).headD .nil

/-- The places of the nodes of `p` that lie below no other, in pre-order. -/
def outermostPaths (p : α → Bool) : BinaryTree α → List Path
  | .nil => []
  | .node v l r => if p v then [[]] else (outermostPaths p l).map (.left :: ·) ++ (outermostPaths p r).map (.right :: ·)

def outermostPlaces (p stop : α → Bool) : BinaryTree α → List Path
  | .nil => []
  | .node v l r =>
    if p v then [[]] else if stop v then []
    else (outermostPlaces p stop l).map (.left :: ·) ++ (outermostPlaces p stop r).map (.right :: ·)

def IsAt (p : α → Bool) (t : BinaryTree α) (q : Path) : Prop := ∃ v, (t.subtreeAt q).root? = some v ∧ p v = true

/-- The node at `q` is one of `p`, and no node above it is one of `p` or of `stop`. -/
def IsOutermost (p stop : α → Bool) (t : BinaryTree α) (q : Path) : Prop :=
  IsAt p t q ∧ ∀ q', q' <+: q → q' ≠ q → ¬ IsAt p t q' ∧ ¬ IsAt stop t q'

variable {p stop : α → Bool} {t u : BinaryTree α}

@[simp] theorem isAt_cons (s : Side) (q : Path) : IsAt p t (s :: q) ↔ IsAt p (t.child s) q := Iff.rfl

theorem isAt_root {v : α} {l r : BinaryTree α} : IsAt p (.node v l r) [] ↔ p v = true := by
  simp [IsAt, root?]

instance (p : α → Bool) (t : BinaryTree α) (q : Path) : Decidable (IsAt p t q) :=
  decidable_of_iff ((t.subtreeAt q).root?.any p = true) (by simp [IsAt, Option.any_eq_true])

theorem IsAt.mem_postorder {q : Path} (h : IsAt p t q) : q ∈ t.postorder := by
  obtain ⟨v,hv,_⟩ := h
  rw [BinaryTree.mem_postorder]
  intro hnil
  simp [hnil, root?] at hv

theorem mem_occurrences : u ∈ occurrences p t ↔ ∃ q, t.subtreeAt q = u ∧ IsAt p t q := by
  induction t with
  | nil => simp [occurrences, IsAt, root?]
  | node v l r ihl ihr =>
    simp only [occurrences, List.mem_append, ihl, ihr]
    constructor
    · rintro (h | ⟨q,hq⟩ | ⟨q,hq⟩)
      · split at h
        · rename_i hv
          rw [List.mem_singleton] at h
          exact ⟨[],h.symm,isAt_root.mpr hv⟩
        · cases h
      · exact ⟨.left :: q,hq⟩
      · exact ⟨.right :: q,hq⟩
    · rintro ⟨_ | ⟨s,q⟩,hu,hq⟩
      · rw [if_pos (isAt_root.mp hq)]
        exact .inl (List.mem_singleton.mpr hu.symm)
      · cases s with
        | left => exact .inr (.inl ⟨q,hu,hq⟩)
        | right => exact .inr (.inr ⟨q,hu,hq⟩)

theorem isOutermost_root {v : α} {l r : BinaryTree α} : IsOutermost p stop (.node v l r) [] ↔ p v = true := by
  constructor
  · exact fun h => isAt_root.mp h.1
  · exact fun h => ⟨isAt_root.mpr h,fun q' hq' hne => absurd (List.prefix_nil.mp hq') hne⟩

/-- Below the root a search goes on unless it found or may not pass the root. -/
theorem isOutermost_cons {v : α} {l r : BinaryTree α} {s : Side} {q : Path} :
    IsOutermost p stop (.node v l r) (s :: q) ↔
      (¬ p v = true ∧ ¬ stop v = true) ∧ IsOutermost p stop ((BinaryTree.node v l r).child s) q := by
  constructor
  · rintro ⟨hq,hout⟩
    have hroot := hout [] List.nil_prefix (by simp)
    rw [isAt_root, isAt_root] at hroot
    refine ⟨hroot,hq,fun q' hq' hne => ?_⟩
    exact hout (s :: q') (List.cons_prefix_cons.mpr ⟨rfl,hq'⟩) (by simpa using hne)
  · rintro ⟨hroot,hq,hout⟩
    refine ⟨hq,fun q' hq' hne => ?_⟩
    cases q' with
    | nil => exact ⟨mt isAt_root.mp hroot.1,mt isAt_root.mp hroot.2⟩
    | cons s' q' =>
      obtain ⟨rfl,hpre⟩ := List.cons_prefix_cons.mp hq'
      exact hout q' hpre (by simpa using hne)

theorem mem_outermostPlaces {q : Path} : q ∈ outermostPlaces p stop t ↔ IsOutermost p stop t q := by
  induction t generalizing q with
  | nil => simp [outermostPlaces, IsOutermost, IsAt, root?]
  | node v l r ihl ihr =>
    rw [outermostPlaces]
    cases q with
    | nil =>
      rw [isOutermost_root]
      by_cases hv : p v = true
      · simp [hv]
      · by_cases hstop : stop v = true
        · simp [hv, hstop]
        · simp [hv, hstop]
    | cons s q =>
      rw [isOutermost_cons]
      by_cases hv : p v = true
      · simp [hv]
      · by_cases hstop : stop v = true
        · simp [hv, hstop]
        · cases s with
          | left => simp [hv, hstop, ihl]
          | right => simp [hv, hstop, ihr]

theorem outermostPlaces_sublist (p stop : α → Bool) (t : BinaryTree α) :
    (outermostPlaces p stop t).Sublist t.preorder := by
  induction t with
  | nil => exact List.Sublist.refl _
  | node v l r ihl ihr =>
    rw [outermostPlaces, preorder]
    split
    · exact (List.nil_sublist _).cons_cons []
    · split
      · exact List.nil_sublist _
      · exact ((ihl.map _).append (ihr.map _)).cons []

theorem outermostPlaces_nodup (p stop : α → Bool) (t : BinaryTree α) : (outermostPlaces p stop t).Nodup :=
  (preorder_nodup t).sublist (outermostPlaces_sublist p stop t)

theorem outermost_eq_map (p stop : α → Bool) (t : BinaryTree α) :
    outermost p stop t = (outermostPlaces p stop t).map t.subtreeAt := by
  induction t with
  | nil => rfl
  | node v l r ihl ihr =>
    rw [outermost, outermostPlaces]
    split
    · rfl
    · split
      · rfl
      · rw [List.map_append, List.map_map, List.map_map, ihl, ihr]
        rfl

/-- An outermost subtree is found on a path on which nothing was found before. -/
theorem mem_outermost : u ∈ outermost p stop t ↔ ∃ q, t.subtreeAt q = u ∧ IsAt p t q ∧
    ∀ q', q' <+: q → q' ≠ q → ¬ IsAt p t q' ∧ ¬ IsAt stop t q' := by
  rw [outermost_eq_map, List.mem_map]
  constructor
  · rintro ⟨q,hq,hu⟩
    exact ⟨q,hu,mem_outermostPlaces.mp hq⟩
  · rintro ⟨q,hu,hq⟩
    exact ⟨q,mem_outermostPlaces.mpr hq,hu⟩

theorem outermostPaths_eq (p : α → Bool) (t : BinaryTree α) :
    outermostPaths p t = outermostPlaces p (fun _ => false) t := by
  induction t with
  | nil => rfl
  | node v l r ihl ihr => rw [outermostPaths, outermostPlaces, ihl, ihr, if_neg Bool.false_ne_true]

theorem mem_outermostPaths {q : Path} : q ∈ outermostPaths p t ↔
    IsAt p t q ∧ ∀ q', q' <+: q → q' ≠ q → ¬ IsAt p t q' := by
  rw [outermostPaths_eq, mem_outermostPlaces]
  simp [IsOutermost, IsAt]

theorem outermostPaths_nodup (p : α → Bool) (t : BinaryTree α) : (outermostPaths p t).Nodup := by
  rw [outermostPaths_eq]
  exact outermostPlaces_nodup p _ t

theorem root_of_mem_outermost (h : u ∈ outermost p stop t) : ∃ v l r, u = .node v l r ∧ p v = true := by
  obtain ⟨q,rfl,⟨v,hv,hp⟩,_⟩ := mem_outermost.mp h
  cases hu : t.subtreeAt q with
  | nil => simp [hu, root?] at hv
  | node w l r =>
    rw [hu] at hv
    cases hv
    exact ⟨v,l,r,rfl,hp⟩

theorem firstOutermost_mem (h : firstOutermost p stop t ≠ nil) : firstOutermost p stop t ∈ outermost p stop t := by
  unfold firstOutermost at h ⊢
  cases hout : outermost p stop t with
  | nil => simp [hout] at h
  | cons u us => exact List.mem_cons_self ..

theorem firstOutermost_eq_nil : firstOutermost p stop t = nil ↔ outermost p stop t = [] := by
  constructor
  · intro h
    cases hout : outermost p stop t with
    | nil => rfl
    | cons u us =>
      rw [firstOutermost, hout] at h
      obtain ⟨v,l,r,rfl,_⟩ := root_of_mem_outermost (hout ▸ List.mem_cons_self .. : u ∈ outermost p stop t)
      cases h
  · intro h
    rw [firstOutermost, h]
    rfl

theorem occurrences_map {γ : Type*} (f : γ → α) (t : BinaryTree γ) :
    occurrences p (t.map f) = (occurrences (p ∘ f) t).map (·.map f) := by
  induction t with
  | nil => rfl
  | node v l r ihl ihr =>
    simp only [map, occurrences, ihl, ihr, List.map_append, Function.comp_apply]
    by_cases hv : p (f v) = true
    · simp [hv, map]
    · simp [hv]

theorem outermost_map {γ : Type*} (f : γ → α) (t : BinaryTree γ) :
    outermost p stop (t.map f) = (outermost (p ∘ f) (stop ∘ f) t).map (·.map f) := by
  induction t with
  | nil => rfl
  | node v l r ihl ihr =>
    simp only [map, outermost, ihl, ihr, Function.comp_apply]
    by_cases hv : p (f v) = true
    · simp [hv, map]
    · by_cases hstop : stop (f v) = true
      · simp [hv, hstop]
      · simp [hv, hstop]

theorem firstOutermost_map {γ : Type*} (f : γ → α) (t : BinaryTree γ) :
    firstOutermost p stop (t.map f) = (firstOutermost (p ∘ f) (stop ∘ f) t).map f := by
  rw [firstOutermost, firstOutermost, outermost_map]
  cases outermost (p ∘ f) (stop ∘ f) t <;> rfl

/-- When `p` occurs inside the subtrees with `q` at the root only, the
occurrences are those in the outermost of these. -/
theorem occurrences_inside {q : α → Bool} (h : ∀ x, IsAt p t x → ∃ y, y <+: x ∧ IsAt q t y) :
    occurrences p t = (outermost q (fun _ => false) t).flatMap (occurrences p) := by
  induction t with
  | nil => rfl
  | node v l r ihl ihr =>
    by_cases hq : q v = true
    · simp [outermost, hq]
    · have hp : p v = false := by
        by_contra hv
        obtain ⟨y,hy,hat⟩ := h [] (isAt_root.mpr (by simpa using hv))
        rw [List.prefix_nil.mp hy] at hat
        exact hq (isAt_root.mp hat)
      have hdown : ∀ s x, IsAt p ((BinaryTree.node v l r).child s) x →
          ∃ y, y <+: x ∧ IsAt q ((BinaryTree.node v l r).child s) y := by
        intro s x hx
        obtain ⟨_ | ⟨s',y⟩,hy,hat⟩ := h (s :: x) hx
        · exact absurd (isAt_root.mp hat) hq
        · obtain ⟨rfl,hpre⟩ := List.cons_prefix_cons.mp hy
          exact ⟨y,hpre,hat⟩
      rw [occurrences, outermost, ihl (hdown .left), ihr (hdown .right)]
      simp [hq, hp]

/-- A subtree below the root is smaller. -/
theorem values_subtreeAt_lt (ht : t ≠ nil) {q : Path} (hq : q ≠ []) :
    (t.subtreeAt q).values.length < t.values.length := by
  cases q with
  | nil => exact absurd rfl hq
  | cons s q =>
    have hle := (subtreeAt_values_sublist (t.child s) q).length_le
    have hlt : (t.child s).values.length < t.values.length := by
      cases t with
      | nil => exact absurd rfl ht
      | node v l r =>
        cases s <;> simp only [child_left, child_right, values, List.length_cons, List.length_append] <;> omega
    exact lt_of_le_of_lt hle hlt

end BinaryTree
