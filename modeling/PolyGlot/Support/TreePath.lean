import Mathlib.Data.Tree.Basic
import Mathlib.Data.List.Infix
import Mathlib.Tactic

set_option autoImplicit false

/-! # Positions in a binary tree

A position is the path of the sides taken from the root. Where a path leaves the
tree the subtree is `nil`, and replacing there changes nothing.
-/
namespace BinaryTree

inductive Side
  | left
  | right
  deriving DecidableEq, Repr

abbrev Path := List Side

variable {α β : Type*}

def child : Side → BinaryTree α → BinaryTree α
  | _, .nil => .nil
  | .left, .node _ l _ => l
  | .right, .node _ _ r => r

def subtreeAt (t : BinaryTree α) : Path → BinaryTree α
  | [] => t
  | s :: p => subtreeAt (t.child s) p

def setChild (s : Side) (u : BinaryTree α) : BinaryTree α → BinaryTree α
  | .nil => .nil
  | .node v l r => match s with
    | .left => .node v u r
    | .right => .node v l u

def replaceAt (t : BinaryTree α) (p : Path) (u : BinaryTree α) : BinaryTree α :=
  match p with
  | [] => u
  | s :: p => setChild s (replaceAt (t.child s) p u) t

def root? : BinaryTree α → Option α
  | .nil => none
  | .node v _ _ => some v

def values : BinaryTree α → List α
  | .nil => []
  | .node v l r => v :: (values l ++ values r)

def preorder : BinaryTree α → List Path
  | .nil => []
  | .node _ l r => [] :: ((preorder l).map (.left :: ·) ++ (preorder r).map (.right :: ·))

def postorder : BinaryTree α → List Path
  | .nil => []
  | .node _ l r => (postorder l).map (.left :: ·) ++ (postorder r).map (.right :: ·) ++ [[]]

@[simp] theorem child_nil (s : Side) : (nil : BinaryTree α).child s = nil := by cases s <;> rfl
@[simp] theorem child_left (v : α) (l r : BinaryTree α) : (node v l r).child .left = l := rfl
@[simp] theorem child_right (v : α) (l r : BinaryTree α) : (node v l r).child .right = r := rfl
@[simp] theorem subtreeAt_root (t : BinaryTree α) : t.subtreeAt [] = t := rfl
@[simp] theorem subtreeAt_cons (t : BinaryTree α) (s : Side) (p : Path) :
    t.subtreeAt (s :: p) = (t.child s).subtreeAt p := rfl
@[simp] theorem replaceAt_root (t u : BinaryTree α) : t.replaceAt [] u = u := rfl
@[simp] theorem replaceAt_cons (t : BinaryTree α) (s : Side) (p : Path) (u : BinaryTree α) :
    t.replaceAt (s :: p) u = setChild s ((t.child s).replaceAt p u) t := rfl
@[simp] theorem setChild_nil (s : Side) (u : BinaryTree α) : setChild s u nil = nil := rfl

@[simp] theorem subtreeAt_nil (p : Path) : (nil : BinaryTree α).subtreeAt p = nil := by
  induction p with
  | nil => rfl
  | cons s p ih => rw [subtreeAt_cons, child_nil, ih]

theorem subtreeAt_append (t : BinaryTree α) (p q : Path) :
    t.subtreeAt (p ++ q) = (t.subtreeAt p).subtreeAt q := by
  induction p generalizing t with
  | nil => rfl
  | cons s p ih => exact ih _

theorem child_setChild_self {s : Side} {t : BinaryTree α} (ht : t ≠ nil) (u : BinaryTree α) :
    (setChild s u t).child s = u := by
  cases t with
  | nil => exact absurd rfl ht
  | node v l r => cases s <;> rfl

theorem replaceAt_append (t : BinaryTree α) (p q : Path) (u : BinaryTree α) :
    t.replaceAt (p ++ q) u = t.replaceAt p ((t.subtreeAt p).replaceAt q u) := by
  induction p generalizing t with
  | nil => rfl
  | cons s p ih => simp only [List.cons_append, replaceAt_cons, ih, subtreeAt_cons]

theorem child_map (f : α → β) (s : Side) (t : BinaryTree α) : (t.map f).child s = (t.child s).map f := by
  cases t <;> cases s <;> rfl

theorem setChild_map (f : α → β) (s : Side) (u t : BinaryTree α) :
    (setChild s u t).map f = setChild s (u.map f) (t.map f) := by
  cases t <;> cases s <;> rfl

theorem subtreeAt_map (f : α → β) (t : BinaryTree α) (p : Path) :
    (t.map f).subtreeAt p = (t.subtreeAt p).map f := by
  induction p generalizing t with
  | nil => rfl
  | cons s p ih => rw [subtreeAt_cons, subtreeAt_cons, child_map, ih]

theorem replaceAt_map (f : α → β) (t : BinaryTree α) (p : Path) (u : BinaryTree α) :
    (t.replaceAt p u).map f = (t.map f).replaceAt p (u.map f) := by
  induction p generalizing t with
  | nil => rfl
  | cons s p ih => rw [replaceAt_cons, replaceAt_cons, setChild_map, child_map, ih]

theorem map_eq_nil {f : α → β} {t : BinaryTree α} : t.map f = nil ↔ t = nil := by
  cases t <;> simp [map]

theorem values_map (f : α → β) (t : BinaryTree α) : (t.map f).values = t.values.map f := by
  induction t with
  | nil => rfl
  | node v l r ihl ihr => simp [map, values, ihl, ihr]

theorem postorder_map (f : α → β) (t : BinaryTree α) : (t.map f).postorder = t.postorder := by
  induction t with
  | nil => rfl
  | node v l r ihl ihr => simp [map, postorder, ihl, ihr]

theorem length_postorder (t : BinaryTree α) : t.postorder.length = t.values.length := by
  induction t with
  | nil => rfl
  | node v l r ihl ihr =>
    simp only [postorder, values, List.length_append, List.length_map, List.length_cons, List.length_nil, ihl, ihr]

theorem mem_postorder {t : BinaryTree α} {p : Path} : p ∈ t.postorder ↔ t.subtreeAt p ≠ nil := by
  induction t generalizing p with
  | nil => simp [postorder]
  | node v l r ihl ihr =>
    rcases p with _ | ⟨s,p⟩
    · simp [postorder]
    · cases s <;> simp [postorder, ihl, ihr]

theorem preorder_nodup (t : BinaryTree α) : t.preorder.Nodup := by
  induction t with
  | nil => exact List.nodup_nil
  | node v l r ihl ihr =>
    rw [preorder, List.nodup_cons]
    constructor
    · simp
    · apply List.Nodup.append (ihl.map List.cons_injective) (ihr.map List.cons_injective)
      intro p hl hr
      obtain ⟨_,_,rfl⟩ := List.mem_map.mp hl
      obtain ⟨_,_,h⟩ := List.mem_map.mp hr
      cases h

theorem mem_values {t : BinaryTree α} {v : α} : v ∈ t.values ↔ ∃ p, (t.subtreeAt p).root? = some v := by
  induction t with
  | nil => simp [values, root?]
  | node w l r ihl ihr =>
    simp only [values, List.mem_cons, List.mem_append, ihl, ihr]
    constructor
    · rintro (rfl | ⟨p,hp⟩ | ⟨p,hp⟩)
      · exact ⟨[],rfl⟩
      · exact ⟨.left :: p,hp⟩
      · exact ⟨.right :: p,hp⟩
    · rintro ⟨_ | ⟨s,p⟩,hp⟩
      · exact .inl (Option.some.inj hp).symm
      · cases s
        · exact .inr (.inl ⟨p,hp⟩)
        · exact .inr (.inr ⟨p,hp⟩)

theorem root?_eq_none {t : BinaryTree α} : t.root? = none ↔ t = nil := by cases t <;> simp [root?]

theorem exists_node_of_ne_nil {t : BinaryTree α} (h : t ≠ nil) : ∃ v l r, t = .node v l r := by
  cases t with
  | nil => exact absurd rfl h
  | node v l r => exact ⟨v,l,r,rfl⟩

theorem eq_leaf {t : BinaryTree α} {p : Path} {v : α} (hroot : (t.subtreeAt p).root? = some v)
    (hbelow : ∀ s, t.subtreeAt (p ++ [s]) = nil) : t.subtreeAt p = .node v .nil .nil := by
  cases h : t.subtreeAt p with
  | nil =>
    rw [h] at hroot
    cases hroot
  | node w l r =>
    have hl := hbelow .left
    have hr := hbelow .right
    rw [subtreeAt_append, h] at hl hr
    rw [h] at hroot
    cases hroot
    exact congrArg₂ (node v) hl hr

theorem replaceAt_ne_nil {t : BinaryTree α} (ht : t ≠ nil) {p : Path} (hp : p ≠ []) (u : BinaryTree α) :
    t.replaceAt p u ≠ nil := by
  rcases p with _ | ⟨s,p⟩
  · exact absurd rfl hp
  · cases t with
    | nil => exact absurd rfl ht
    | node v l r => cases s <;> simp [setChild]

/-- A node that does not lie at or below the place of a replacement is kept. -/
theorem root?_subtreeAt_replaceAt {t u : BinaryTree α} {p q : Path} (h : ¬ p <+: q) :
    ((t.replaceAt p u).subtreeAt q).root? = (t.subtreeAt q).root? := by
  induction p generalizing t q with
  | nil => exact absurd (List.nil_prefix) h
  | cons s p ih =>
    cases t with
    | nil => rfl
    | node v l r =>
      rcases q with _ | ⟨s',q⟩
      · cases s <;> rfl
      · by_cases hs : s = s'
        · subst hs
          rw [List.cons_prefix_cons, not_and] at h
          rw [replaceAt_cons, subtreeAt_cons, child_setChild_self (by simp)]
          exact ih (h rfl)
        · cases s <;> cases s' <;> first | rfl | exact absurd rfl hs

theorem subtreeAt_replaceAt_append {t : BinaryTree α} {p : Path} (h : t.subtreeAt p ≠ nil) (u : BinaryTree α)
    (q : Path) : (t.replaceAt p u).subtreeAt (p ++ q) = u.subtreeAt q := by
  induction p generalizing t with
  | nil => rfl
  | cons s p ih =>
    have ht : t ≠ nil := by
      rintro rfl
      exact h (subtreeAt_nil _)
    rw [replaceAt_cons, List.cons_append, subtreeAt_cons, child_setChild_self ht]
    exact ih h

/-- Only the value at the root of a subtree is exchanged. -/
theorem root?_replaceAt_node {t l r : BinaryTree α} {p q : Path} {v w : α} (h : t.subtreeAt p = .node v l r) :
    ((t.replaceAt p (.node w l r)).subtreeAt q).root? = if q = p then some w else (t.subtreeAt q).root? := by
  by_cases hpq : p <+: q
  · obtain ⟨d,rfl⟩ := hpq
    rw [subtreeAt_replaceAt_append (by simp [h]), subtreeAt_append, h]
    cases d with
    | nil => simp [root?]
    | cons s d => cases s <;> simp
  · rw [root?_subtreeAt_replaceAt hpq, if_neg]
    intro heq
    exact hpq (heq ▸ List.prefix_refl q)

def Before (p q : Path) : Prop := ∃ c p' q', p = c ++ .left :: p' ∧ q = c ++ .right :: q'

theorem Before.of_append {c p q : Path} (h : Before (c ++ p) (c ++ q)) : Before p q := by
  induction c with
  | nil => exact h
  | cons s c ih =>
    apply ih
    obtain ⟨_ | ⟨s',d⟩,p',q',hp,hq⟩ := h
    · rw [List.nil_append, List.cons_append, List.cons.injEq] at hp hq
      have hside := hp.1.symm.trans hq.1
      cases hside
    · rw [List.cons_append, List.cons_append, List.cons.injEq] at hp hq
      exact ⟨d,p',q',hp.2,hq.2⟩

/-- Two paths that part at a node part there for all that lies below the one. -/
theorem prefix_of_split {c r p' : Path} {s s' : Side} {y : Path} (h : r <+: c ++ s :: p')
    (hy : ¬ r <+: c ++ s' :: y) : ∃ r', r = c ++ s :: r' := by
  induction c generalizing r with
  | nil =>
    cases r with
    | nil => exact absurd List.nil_prefix hy
    | cons x r =>
      rw [List.nil_append, List.cons_prefix_cons] at h
      exact ⟨r,by rw [h.1, List.nil_append]⟩
  | cons x c ih =>
    cases r with
    | nil => exact absurd List.nil_prefix hy
    | cons z r =>
      rw [List.cons_append, List.cons_prefix_cons] at h hy
      obtain ⟨rfl,h⟩ := h
      obtain ⟨r',rfl⟩ := ih h fun hpre => hy ⟨rfl,hpre⟩
      exact ⟨r',rfl⟩

theorem Before.of_prefix_left {r p q : Path} (h : Before p q) (hp : r <+: p) (hq : ¬ r <+: q) : Before r q := by
  obtain ⟨c,p',q',rfl,rfl⟩ := h
  obtain ⟨r',rfl⟩ := prefix_of_split hp hq
  exact ⟨c,r',q',rfl,rfl⟩

theorem Before.of_prefix_right {r p q : Path} (h : Before p q) (hp : ¬ r <+: p) (hq : r <+: q) : Before p r := by
  obtain ⟨c,p',q',rfl,rfl⟩ := h
  obtain ⟨r',rfl⟩ := prefix_of_split hq hp
  exact ⟨c,p',r',rfl,rfl⟩

/-- `p` comes before `q` in pre-order: it is above it or the subtree at `p` lies before. -/
def Earlier (p q : Path) : Prop := (∃ s r, q = p ++ s :: r) ∨ Before p q

theorem not_earlier_root (p : Path) : ¬ Earlier p [] := by simp [Earlier, Before]

theorem Earlier.root (s : Side) (q : Path) : Earlier [] (s :: q) := .inl ⟨s,q,rfl⟩

theorem Earlier.left_right (p q : Path) : Earlier (.left :: p) (.right :: q) := .inr ⟨[],p,q,rfl,rfl⟩

theorem Earlier.cons {p q : Path} (h : Earlier p q) (s : Side) : Earlier (s :: p) (s :: q) := by
  rcases h with ⟨s',r,rfl⟩ | ⟨c,p',q',rfl,rfl⟩
  · exact .inl ⟨s',r,rfl⟩
  · exact .inr ⟨s :: c,p',q',rfl,rfl⟩

theorem child_values_sublist (t : BinaryTree α) (s : Side) : (t.child s).values.Sublist t.values := by
  cases t with
  | nil => simp
  | node v l r =>
    cases s
    · exact (List.sublist_append_left ..).cons _
    · exact (List.sublist_append_right ..).cons _

theorem subtreeAt_values_sublist (t : BinaryTree α) (p : Path) : (t.subtreeAt p).values.Sublist t.values := by
  induction p generalizing t with
  | nil => exact List.Sublist.refl _
  | cons s p ih => exact (ih _).trans (child_values_sublist t s)

theorem height_child_lt {t : BinaryTree α} (ht : t ≠ nil) (s : Side) : (t.child s).height < t.height := by
  cases t with
  | nil => exact absurd rfl ht
  | node v l r => cases s <;> simp only [child_left, child_right, height] <;> omega

end BinaryTree
