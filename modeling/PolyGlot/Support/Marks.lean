import PolyGlot.Support.TreePath

set_option autoImplicit false

/-! # Walks that stop at marks

A walk enters the nodes of a tree in pre-order and marks the key of each. Where a
key is marked already it passes over the node and all that lies below it. Marks
may be lost when a node is entered, so the tree and the first marks do not tell
which nodes are entered; but a walk comes to every node above which no key was
marked before, nor belongs to an earlier node. Where no marks are lost it comes to
no node above which a key was marked before.
-/
namespace Marks

open BinaryTree

structure Walk (α κ σ : Type*) where
  key : α → BinaryTree α → BinaryTree α → κ
  marked : σ → κ → Bool
  enter : α → BinaryTree α → BinaryTree α → σ → σ

variable {α κ σ : Type*}

def Walk.run (w : Walk α κ σ) : BinaryTree α → σ → σ
  | .nil, s => s
  | .node v l r, s => if w.marked s (w.key v l r) then s else run w r (run w l (w.enter v l r s))

def Walk.keyOf (w : Walk α κ σ) : BinaryTree α → Option κ
  | .nil => none
  | .node v l r => some (w.key v l r)

def Unmarked (key : BinaryTree α → Option κ) (marked : κ → Prop) (t : BinaryTree α) (p : Path) : Prop :=
  ∀ q sd r, p = q ++ sd :: r → ∀ k, key (t.subtreeAt q) = some k → ¬ marked k

/-- The key at `q` is that of no earlier node. -/
def FirstAt (key : BinaryTree α → Option κ) (t : BinaryTree α) (q : Path) : Prop :=
  ∀ k, key (t.subtreeAt q) = some k → ∀ q', Earlier q' q → key (t.subtreeAt q') ≠ some k

/-- No key above `p` is that of an earlier node. -/
def Unrepeated (key : BinaryTree α → Option κ) (t : BinaryTree α) (p : Path) : Prop :=
  ∀ q sd r, p = q ++ sd :: r → FirstAt key t q

section
variable {key : BinaryTree α → Option κ} {marked marked' : κ → Prop} {t : BinaryTree α} {p : Path} {sd : Side}

/-- What is marked besides comes from nodes before all of the child. -/
theorem Unmarked.child (h : Unmarked key marked t (sd :: p)) (hfirst : Unrepeated key t (sd :: p))
    (hmarked : ∀ k, marked' k → marked k ∨ ∃ q', key (t.subtreeAt q') = some k ∧ ∀ q, Earlier q' (sd :: q)) :
    Unmarked key marked' (t.child sd) p := by
  rintro q sd' r rfl k hk hk'
  rcases hmarked k hk' with hold | ⟨q',hq',hearlier⟩
  · exact h (sd :: q) sd' r rfl k hk hold
  · exact hfirst (sd :: q) sd' r rfl k hk q' (hearlier q) hq'

theorem Unmarked.cons (hroot : ∀ k, key t = some k → ¬ marked k) (h : Unmarked key marked' (t.child sd) p)
    (hmarked : ∀ k, marked k → marked' k) : Unmarked key marked t (sd :: p) := by
  intro q sd' r heq k hk
  cases q with
  | nil => exact hroot k hk
  | cons x q =>
    obtain ⟨rfl,rfl⟩ := List.cons.inj heq
    exact mt (hmarked k) (h q sd' r rfl k hk)

theorem unmarked_root : Unmarked key marked t [] := by
  intro q sd r heq
  simp at heq

theorem unrepeated_root : Unrepeated key t [] := by
  intro q sd r heq
  simp at heq

theorem unmarked_side (h : ∀ k, key t = some k → ¬ marked k) : Unmarked key marked t [sd] :=
  .cons h unmarked_root fun _ hk => hk

theorem unrepeated_side : Unrepeated key t [sd] := by
  intro q sd' r heq
  obtain ⟨rfl,-⟩ : q = [] ∧ sd' = sd ∧ r = [] := by simpa [List.singleton_eq_append_iff] using heq
  exact fun _ _ q' hearlier => absurd hearlier (not_earlier_root q')

theorem Unrepeated.child (h : Unrepeated key t (sd :: p)) : Unrepeated key (t.child sd) p := by
  rintro q sd' r rfl k hk q' hearlier
  exact h (sd :: q) sd' r rfl k hk (sd :: q') (hearlier.cons sd)

end

namespace Walk

def MarksOwn (w : Walk α κ σ) : Prop :=
  ∀ v l r s k, w.marked (w.enter v l r s) k → w.marked s k ∨ k = w.key v l r

/-- A state has `P` once a good node was entered, and the key of a good node is
not marked before. -/
structure Collects (w : Walk α κ σ) (P : σ → Prop) (good : α → Prop) : Prop where
  enter : ∀ v l r s, P (w.enter v l r s) ↔ P s ∨ good v
  known : ∀ v l r s, good v → w.marked s (w.key v l r) → P s

/-- As long as there is room for the nodes to come no marks are lost. -/
structure KeepsMarks (w : Walk α κ σ) (room : σ → List α → Prop) : Prop where
  enter : ∀ v l r s vs, room s (v :: vs) → room (w.enter v l r s) vs
  marked : ∀ v l r s vs k, room s (v :: vs) → w.marked s k → w.marked (w.enter v l r s) k
  drop : ∀ s vs ws, room s (vs ++ ws) → room s ws

variable {w : Walk α κ σ} {P : σ → Prop} {good : α → Prop} {room : σ → List α → Prop} {t : BinaryTree α} {s : σ}
  {p : Path} {k : κ} {vs : List α}

theorem run_marked (hown : w.MarksOwn) (h : w.marked (w.run t s) k) :
    w.marked s k ∨ ∃ q, w.keyOf (t.subtreeAt q) = some k := by
  induction t generalizing s with
  | nil => exact .inl h
  | node v l r ihl ihr =>
    rw [run] at h
    split at h
    · exact .inl h
    · rcases ihr h with h | ⟨q,hq⟩
      · rcases ihl h with h | ⟨q,hq⟩
        · rcases hown v l r s k h with h | rfl
          · exact .inl h
          · exact .inr ⟨[],rfl⟩
        · exact .inr ⟨.left :: q,hq⟩
      · exact .inr ⟨.right :: q,hq⟩

theorem Collects.keeps (h : w.Collects P good) (hs : P s) : P (w.run t s) := by
  induction t generalizing s with
  | nil => exact hs
  | node v l r ihl ihr =>
    rw [run]
    split
    · exact hs
    · exact ihr (ihl ((h.enter v l r s).mpr (.inl hs)))

/-- The walk comes to the good node at `p`. -/
theorem Collects.run (h : w.Collects P good) (hown : w.MarksOwn) {v : α} (hv : (t.subtreeAt p).root? = some v) (hgood : good v)
    (hmarked : Unmarked w.keyOf (fun k => w.marked s k) t p) (hfirst : Unrepeated w.keyOf t p) : P (w.run t s) := by
  induction p generalizing t s with
  | nil =>
    cases t with
    | nil => cases hv
    | node v' l r =>
      cases hv
      rw [Walk.run]
      split
      · exact h.known v l r s hgood ‹_›
      · exact h.keeps (h.keeps ((h.enter v l r s).mpr (.inr hgood)))
  | cons sd p ih =>
    cases t with
    | nil =>
      rw [subtreeAt_nil] at hv
      cases hv
    | node x l r =>
      rw [Walk.run, if_neg (hmarked [] sd p rfl _ rfl)]
      have hroot : ∀ {sd'} k, w.marked (w.enter x l r s) k → w.marked s k ∨
          ∃ q', w.keyOf ((BinaryTree.node x l r).subtreeAt q') = some k ∧ ∀ q, Earlier q' (sd' :: q) := by
        intro sd' k hk
        exact (hown x l r s k hk).imp id fun heq => ⟨[],congrArg some heq.symm,Earlier.root sd'⟩
      cases sd with
      | left => exact h.keeps (ih hv (hmarked.child hfirst hroot) hfirst.child)
      | right =>
        refine ih hv (hmarked.child hfirst fun k hk => ?_) hfirst.child
        rcases run_marked hown hk with hk | ⟨q,hq⟩
        · exact hroot k hk
        · exact .inr ⟨.left :: q,hq,Earlier.left_right q⟩

theorem KeepsMarks.run (h : w.KeepsMarks room) (hroom : room s (t.values ++ vs)) :
    room (w.run t s) vs ∧ ∀ k, w.marked s k → w.marked (w.run t s) k := by
  induction t generalizing s vs with
  | nil => exact ⟨hroom,fun _ hk => hk⟩
  | node v l r ihl ihr =>
    rw [Walk.run]
    split
    · exact ⟨h.drop s _ vs hroom,fun _ hk => hk⟩
    · rw [values, List.cons_append, List.append_assoc] at hroom
      obtain ⟨hl,hmarkedl⟩ := ihl (h.enter v l r s _ hroom)
      obtain ⟨hr,hmarkedr⟩ := ihr hl
      exact ⟨hr,fun k hk => hmarkedr k (hmarkedl k (h.marked v l r s _ k hroom hk))⟩

/-- Where there is room, a state that has `P` had it before, or the walk came to a
good node. -/
theorem Collects.of_run (h : w.Collects P good) (hkeeps : w.KeepsMarks room) (hroom : room s (t.values ++ vs))
    (hrun : P (w.run t s)) : P s ∨ ∃ p v, (t.subtreeAt p).root? = some v ∧ good v ∧
      Unmarked w.keyOf (fun k => w.marked s k) t p := by
  induction t generalizing s vs with
  | nil => exact .inl hrun
  | node v l r ihl ihr =>
    rw [Walk.run] at hrun
    split at hrun
    · exact .inl hrun
    · rw [values, List.cons_append, List.append_assoc] at hroom
      have hroot : ∀ k, w.keyOf (.node v l r) = some k → ¬ w.marked s k := by
        intro k hk
        cases hk
        assumption
      have henter : ∀ k, w.marked s k → w.marked (w.enter v l r s) k := fun k => hkeeps.marked v l r s _ k hroom
      have hroom₁ := hkeeps.enter v l r s _ hroom
      obtain ⟨hroom₂,hmarked₂⟩ := hkeeps.run hroom₁
      rcases ihr hroom₂ hrun with hrun | ⟨p,x,hx,hgood,hp⟩
      · rcases ihl hroom₁ hrun with hrun | ⟨p,x,hx,hgood,hp⟩
        · rcases (h.enter v l r s).mp hrun with hs | hgood
          · exact .inl hs
          · refine .inr ⟨[],v,rfl,hgood,?_⟩
            intro q sd r' heq
            simp at heq
        · exact .inr ⟨.left :: p,x,hx,hgood,.cons hroot hp henter⟩
      · exact .inr ⟨.right :: p,x,hx,hgood,.cons hroot hp fun k hk => hmarked₂ k (henter k hk)⟩

end Walk

end Marks
