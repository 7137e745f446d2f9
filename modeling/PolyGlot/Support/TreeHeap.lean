import PolyGlot.Support.Prog
import PolyGlot.Support.TreePath

set_option autoImplicit false

/-! # Binary trees in memory

A heap of cells with two pointers each, allocated upwards. What a pointer holds
is described by a tree of pairs, the address of each node beside its value;
`Holds h t` says that memory has that tree. Nothing is ever freed.
-/
namespace TreeHeap

open BinaryTree Prog

abbrev Ptr := Option ℕ

structure Cell (α : Type) where
  val : α
  left : Ptr
  right : Ptr

structure Heap (α : Type) where
  cell : ℕ → Option (Cell α)
  next : ℕ
  fresh : ∀ a, next ≤ a → cell a = none

inductive HeapError
  | null
  | dangling
  | outOfFuel

variable {α : Type}

def Heap.empty : Heap α := ⟨fun _ => none,0,fun _ _ => rfl⟩

def Heap.push (h : Heap α) (c : Cell α) : Heap α where
  cell := Function.update h.cell h.next (some c)
  next := h.next + 1
  fresh a ha := by
    rw [Function.update_of_ne (by omega), h.fresh a (by omega)]

def Heap.write (h : Heap α) (a : ℕ) (c : Cell α) (ha : a < h.next) : Heap α where
  cell := Function.update h.cell a (some c)
  next := h.next
  fresh b hb := by
    rw [Function.update_of_ne (by omega), h.fresh b hb]

def deref (p : Ptr) : Prog HeapError (Heap α) (Cell α) := fun h =>
  match p with
  | none => .error .null
  | some a => match h.cell a with
    | none => .error .dangling
    | some c => .ok (c, h)

def new (val : ℕ → α) (left right : Ptr) : Prog HeapError (Heap α) Ptr := fun h =>
  .ok (some h.next, h.push ⟨val h.next,left,right⟩)

def update (p : Ptr) (f : Cell α → Cell α) : Prog HeapError (Heap α) Unit := fun h =>
  match p with
  | none => .error .null
  | some a => if ha : a < h.next then
      match h.cell a with
      | none => .error .dangling
      | some c => .ok ((), h.write a (f c) ha)
    else .error .dangling

def load : ℕ → Ptr → Prog HeapError (Heap α) (BinaryTree α)
  | 0, _ => fun _ => .error .outOfFuel
  | _ + 1, none => pure .nil
  | fuel + 1, some a => do
    let c ← deref (some a)
    let l ← load fuel c.left
    let r ← load fuel c.right
    return .node c.val l r

def Cell.side : Side → Cell α → Ptr
  | .left, c => c.left
  | .right, c => c.right

def Cell.setSide : Side → Ptr → Cell α → Cell α
  | .left, p, c => { c with left := p }
  | .right, p, c => { c with right := p }

def Cell.mapVal (f : α → α) (c : Cell α) : Cell α := { c with val := f c.val }

/-- Give a recursion the number of cells as its fuel: it bounds the depth of
every tree in memory. -/
def withFuel {β : Type} (m : ℕ → Prog HeapError (Heap α) β) : Prog HeapError (Heap α) β :=
  fun h => m (h.next + 1) h

def ptr : BinaryTree (ℕ × α) → Ptr
  | .nil => none
  | .node v _ _ => some v.1

def addrs (t : BinaryTree (ℕ × α)) : List ℕ := t.values.map Prod.fst

def vals (t : BinaryTree (ℕ × α)) : BinaryTree α := t.map Prod.snd

def Holds (h : Heap α) : BinaryTree (ℕ × α) → Prop
  | .nil => True
  | .node v l r => h.cell v.1 = some ⟨v.2,ptr l,ptr r⟩ ∧ Holds h l ∧ Holds h r

@[simp] theorem ptr_nil : ptr (.nil : BinaryTree (ℕ × α)) = none := rfl
@[simp] theorem ptr_node (v : ℕ × α) (l r : BinaryTree (ℕ × α)) : ptr (.node v l r) = some v.1 := rfl
@[simp] theorem addrs_nil : addrs (.nil : BinaryTree (ℕ × α)) = [] := rfl
@[simp] theorem addrs_node (v : ℕ × α) (l r : BinaryTree (ℕ × α)) :
    addrs (.node v l r) = v.1 :: (addrs l ++ addrs r) := by
  simp [addrs, values]
@[simp] theorem vals_nil : vals (.nil : BinaryTree (ℕ × α)) = .nil := rfl
@[simp] theorem vals_node (v : ℕ × α) (l r : BinaryTree (ℕ × α)) :
    vals (.node v l r) = .node v.2 (vals l) (vals r) := rfl

theorem ptr_eq_none {t : BinaryTree (ℕ × α)} : ptr t = none ↔ t = .nil := by cases t <;> simp

theorem vals_eq_nil {t : BinaryTree (ℕ × α)} : vals t = .nil ↔ t = .nil := map_eq_nil

theorem mem_addrs_of_ptr {t : BinaryTree (ℕ × α)} {a : ℕ} (h : ptr t = some a) : a ∈ addrs t := by
  cases t with
  | nil => cases h
  | node v l r =>
    cases h
    simp

structure Extends (h h' : Heap α) : Prop where
  next : h.next ≤ h'.next
  cell : ∀ a < h.next, h'.cell a = h.cell a

theorem Extends.refl (h : Heap α) : Extends h h := ⟨le_rfl,fun _ _ => rfl⟩

theorem Extends.trans {h₁ h₂ h₃ : Heap α} (h : Extends h₁ h₂) (h' : Extends h₂ h₃) : Extends h₁ h₃ :=
  ⟨h.next.trans h'.next,fun a ha => (h'.cell a (ha.trans_le h.next)).trans (h.cell a ha)⟩

theorem lt_next {h : Heap α} {a : ℕ} {c : Cell α} (hc : h.cell a = some c) : a < h.next := by
  by_contra hlt
  rw [h.fresh a (by omega)] at hc
  cases hc

theorem extends_push (h : Heap α) (c : Cell α) : Extends h (h.push c) := by
  refine ⟨Nat.le_succ _,fun a ha => ?_⟩
  exact Function.update_of_ne (by omega) ..

namespace Holds

theorem lt {h : Heap α} {t : BinaryTree (ℕ × α)} (ht : Holds h t) {a : ℕ} (ha : a ∈ addrs t) :
    a < h.next := by
  induction t with
  | nil => simp at ha
  | node v l r ihl ihr =>
    obtain ⟨hc,hl,hr⟩ := ht
    rw [addrs_node, List.mem_cons, List.mem_append] at ha
    rcases ha with rfl | ha | ha
    · exact lt_next hc
    · exact ihl hl ha
    · exact ihr hr ha

theorem congr {h h' : Heap α} {t : BinaryTree (ℕ × α)} (ht : Holds h t)
    (hcell : ∀ a ∈ addrs t, h'.cell a = h.cell a) : Holds h' t := by
  induction t with
  | nil => trivial
  | node v l r ihl ihr =>
    obtain ⟨hc,hl,hr⟩ := ht
    simp only [addrs_node, List.mem_cons, List.mem_append] at hcell
    exact ⟨(hcell _ (.inl rfl)).trans hc,ihl hl fun a ha => hcell a (.inr (.inl ha)),
      ihr hr fun a ha => hcell a (.inr (.inr ha))⟩

theorem keep {h h' : Heap α} {t : BinaryTree (ℕ × α)} (ht : Holds h t) (hext : Extends h h') :
    Holds h' t :=
  ht.congr fun a ha => hext.cell a (ht.lt ha)

theorem child {h : Heap α} {t : BinaryTree (ℕ × α)} (ht : Holds h t) (s : Side) : Holds h (t.child s) := by
  cases t with
  | nil => rw [child_nil]; trivial
  | node v l r => cases s with
    | left => exact ht.2.1
    | right => exact ht.2.2

theorem subtreeAt {h : Heap α} {t : BinaryTree (ℕ × α)} (ht : Holds h t) (p : Path) :
    Holds h (t.subtreeAt p) := by
  induction p generalizing t with
  | nil => exact ht
  | cons s p ih => exact ih (ht.child s)

/-- Memory has at most one tree behind a pointer. -/
theorem unique {h : Heap α} {t u : BinaryTree (ℕ × α)} (ht : Holds h t) (hu : Holds h u)
    (hp : ptr t = ptr u) : t = u := by
  induction t generalizing u with
  | nil => exact (ptr_eq_none.mp hp.symm).symm
  | node v l r ihl ihr =>
    cases u with
    | nil => cases hp
    | node w l' r' =>
      obtain ⟨hc,hl,hr⟩ := ht
      obtain ⟨hc',hl',hr'⟩ := hu
      have haddr : v.1 = w.1 := Option.some.inj hp
      rw [haddr, hc', Option.some.injEq, Cell.mk.injEq] at hc
      rw [ihl hl hl' hc.2.1.symm, ihr hr hr' hc.2.2.symm, Prod.ext haddr hc.1.symm]

/-- A node is not in a tree lower than its own. -/
theorem root_notMem {h : Heap α} {v : ℕ × α} {l r u : BinaryTree (ℕ × α)} (ht : Holds h (.node v l r))
    (hu : Holds h u) (hlt : u.height < (BinaryTree.node v l r).height) : v.1 ∉ addrs u := by
  induction u with
  | nil => simp
  | node w ul ur ihl ihr =>
    rw [addrs_node, List.mem_cons, List.mem_append]
    rintro (hv | hv | hv)
    · have heq := ht.unique hu (congrArg some hv)
      rw [heq] at hlt
      exact lt_irrefl _ hlt
    · exact ihl hu.2.1 ((height_child_lt (t := .node w ul ur) (by simp) .left).trans hlt) hv
    · exact ihr hu.2.2 ((height_child_lt (t := .node w ul ur) (by simp) .right).trans hlt) hv

theorem height_le_card {h : Heap α} {t : BinaryTree (ℕ × α)} (ht : Holds h t) :
    t.height ≤ (addrs t).toFinset.card := by
  induction t with
  | nil => simp [height]
  | node v l r ihl ihr =>
    have hl := ht.root_notMem ht.2.1 (height_child_lt (t := .node v l r) (by simp) .left)
    have hr := ht.root_notMem ht.2.2 (height_child_lt (t := .node v l r) (by simp) .right)
    have hsubl : (addrs l).toFinset.card ≤ ((addrs l).toFinset ∪ (addrs r).toFinset).card :=
      Finset.card_le_card Finset.subset_union_left
    have hsubr : (addrs r).toFinset.card ≤ ((addrs l).toFinset ∪ (addrs r).toFinset).card :=
      Finset.card_le_card Finset.subset_union_right
    have hcard : (addrs (.node v l r)).toFinset.card = ((addrs l).toFinset ∪ (addrs r).toFinset).card + 1 := by
      rw [addrs_node, List.toFinset_cons, List.toFinset_append, Finset.card_insert_of_notMem (by simp [hl, hr])]
    have hlheight := ihl ht.2.1
    have hrheight := ihr ht.2.2
    simp only [height]
    omega

/-- A tree is no deeper than memory has cells. -/
theorem height_le {h : Heap α} {t : BinaryTree (ℕ × α)} (ht : Holds h t) : t.height ≤ h.next := by
  refine ht.height_le_card.trans ?_
  rw [← Finset.card_range h.next]
  exact Finset.card_le_card fun a ha => Finset.mem_range.mpr (ht.lt (List.mem_toFinset.mp ha))

end Holds

theorem meets_deref {h : Heap α} {t : BinaryTree (ℕ × α)} {v : ℕ × α} {l r : BinaryTree (ℕ × α)}
    (ht : Holds h t) (hroot : t = .node v l r) {Q : Cell α → Heap α → Prop}
    (hQ : Q ⟨v.2,ptr l,ptr r⟩ h) : Meets (deref (ptr t)) h Q := by
  subst hroot
  exact ⟨_,h,by simp only [deref, ptr_node, ht.1],hQ⟩

theorem meets_new {h : Heap α} {val : ℕ → α} {l r : BinaryTree (ℕ × α)} (hl : Holds h l)
    (hr : Holds h r) {Q : Ptr → Heap α → Prop}
    (hQ : ∀ h', Extends h h' → Holds h' (.node (h.next, val h.next) l r) → h'.next = h.next + 1 →
      Q (some h.next) h') : Meets (new val (ptr l) (ptr r)) h Q := by
  refine ⟨_,_,rfl,hQ _ (extends_push h _) ⟨?_,hl.keep (extends_push h _),hr.keep (extends_push h _)⟩ rfl⟩
  exact Function.update_self ..

/-- Loading gives the values of the tree. -/
theorem meets_load {h : Heap α} {t : BinaryTree (ℕ × α)} (ht : Holds h t) {fuel : ℕ}
    (hfuel : t.height < fuel) {Q : BinaryTree α → Heap α → Prop} (hQ : Q (vals t) h) :
    Meets (load fuel (ptr t)) h Q := by
  induction t generalizing fuel Q with
  | nil =>
    obtain ⟨k,rfl⟩ : ∃ k, fuel = k + 1 := ⟨fuel - 1,by omega⟩
    exact Meets.pure hQ
  | node v l r ihl ihr =>
    obtain ⟨k,rfl⟩ : ∃ k, fuel = k + 1 := ⟨fuel - 1,by omega⟩
    simp only [height] at hfuel
    refine (meets_deref ht rfl (Q := fun c h' => c = ⟨v.2,ptr l,ptr r⟩ ∧ h = h') ⟨rfl,rfl⟩).bind ?_
    rintro c h' ⟨rfl,rfl⟩
    refine (ihl (Q := fun t h' => t = vals l ∧ h = h') ht.2.1 (by omega) ⟨rfl,rfl⟩).bind ?_
    rintro tl h' ⟨rfl,rfl⟩
    refine (ihr (Q := fun t h' => t = vals r ∧ h = h') ht.2.2 (by omega) ⟨rfl,rfl⟩).bind ?_
    rintro tr h' ⟨rfl,rfl⟩
    exact Meets.pure hQ

theorem deref_reads {p : Ptr} {h h' : Heap α} {c : Cell α} (hrun : deref p h = .ok (c,h')) : h' = h := by
  unfold deref at hrun
  split at hrun
  · cases hrun
  · split at hrun
    · cases hrun
    · cases hrun
      rfl

/-- Loading leaves memory as it is, whatever the pointer leads to. -/
theorem load_reads {fuel : ℕ} {p : Ptr} {h h' : Heap α} {t : BinaryTree α} (hrun : load fuel p h = .ok (t,h')) : h' = h := by
  induction fuel generalizing p t h h' with
  | zero => cases hrun
  | succ fuel ih =>
    cases p with
    | none =>
      cases hrun
      rfl
    | some a =>
      rw [load] at hrun
      obtain ⟨c,h₁,hcell,hrun⟩ := of_bind hrun
      obtain ⟨l,h₂,hleft,hrun⟩ := of_bind hrun
      obtain ⟨r,h₃,hright,hrun⟩ := of_bind hrun
      cases hrun
      rw [ih hright, ih hleft, deref_reads hcell]

theorem meets_withFuel {β : Type} {m : ℕ → Prog HeapError (Heap α) β} {h : Heap α} {Q : β → Heap α → Prop}
    (hm : Meets (m (h.next + 1)) h Q) : Meets (withFuel m) h Q := hm

structure Writes (h h' : Heap α) (a : ℕ) (c : Cell α) : Prop where
  next : h'.next = h.next
  self : h'.cell a = some c
  other : ∀ b, b ≠ a → h'.cell b = h.cell b

theorem meets_updateCell {h : Heap α} {a : ℕ} {c : Cell α} (hc : h.cell a = some c) {f : Cell α → Cell α}
    {Q : Unit → Heap α → Prop} (hQ : ∀ h', Writes h h' a (f c) → Q () h') : Meets (update (some a) f) h Q := by
  have hlt := lt_next hc
  refine ⟨(),h.write a (f c) hlt,?_,hQ _ ⟨rfl,?_,?_⟩⟩
  · simp only [update, hc, dif_pos hlt]
  · exact Function.update_self ..
  · exact fun b hb => Function.update_of_ne hb ..

theorem meets_update {h : Heap α} {t : BinaryTree (ℕ × α)} {v : ℕ × α} {l r : BinaryTree (ℕ × α)}
    (ht : Holds h t) (hroot : t = .node v l r) {f : Cell α → Cell α} {Q : Unit → Heap α → Prop}
    (hQ : ∀ h', Writes h h' v.1 (f ⟨v.2,ptr l,ptr r⟩) → Q () h') : Meets (update (ptr t) f) h Q := by
  subst hroot
  exact meets_updateCell ht.1 hQ

theorem addrs_child_sublist (t : BinaryTree (ℕ × α)) (s : Side) : (addrs (t.child s)).Sublist (addrs t) :=
  (child_values_sublist t s).map Prod.fst

theorem addrs_subtreeAt_sublist (t : BinaryTree (ℕ × α)) (p : Path) :
    (addrs (t.subtreeAt p)).Sublist (addrs t) :=
  (subtreeAt_values_sublist t p).map Prod.fst

theorem mem_addrs_subtreeAt {t : BinaryTree (ℕ × α)} {p : Path} {a : ℕ}
    (h : ptr (t.subtreeAt p) = some a) : a ∈ addrs t :=
  (addrs_subtreeAt_sublist t p).subset (mem_addrs_of_ptr h)

/-- In a tree with distinct addresses a node has one position. -/
theorem path_unique {t : BinaryTree (ℕ × α)} (ht : (addrs t).Nodup) {p q : Path} {a : ℕ}
    (hp : ptr (t.subtreeAt p) = some a) (hq : ptr (t.subtreeAt q) = some a) : p = q := by
  induction t generalizing p q with
  | nil => simp at hp
  | node v l r ihl ihr =>
    rw [addrs_node, List.nodup_cons, List.mem_append, List.nodup_append] at ht
    obtain ⟨hv,hl,hr,hlr⟩ := ht
    rcases p with _ | ⟨_ | _,p⟩ <;> rcases q with _ | ⟨_ | _,q⟩ <;>
      simp only [subtreeAt_root, subtreeAt_cons, child_left, child_right, ptr_node, Option.some.injEq] at hp hq
    · rfl
    · exact absurd (.inl (hp ▸ mem_addrs_subtreeAt hq)) hv
    · exact absurd (.inr (hp ▸ mem_addrs_subtreeAt hq)) hv
    · exact absurd (.inl (hq ▸ mem_addrs_subtreeAt hp)) hv
    · rw [ihl hl hp hq]
    · exact absurd rfl (hlr _ (mem_addrs_subtreeAt hp) _ (mem_addrs_subtreeAt hq))
    · exact absurd (.inr (hq ▸ mem_addrs_subtreeAt hp)) hv
    · exact absurd rfl (hlr _ (mem_addrs_subtreeAt hq) _ (mem_addrs_subtreeAt hp))
    · rw [ihr hr hp hq]

theorem ptr_replaceAt {t u : BinaryTree (ℕ × α)} {p : Path} (h : ptr u = ptr (t.subtreeAt p)) :
    ptr (t.replaceAt p u) = ptr t := by
  rcases p with _ | ⟨s,p⟩
  · exact h
  · cases t with
    | nil => rfl
    | node v l r => cases s <;> rfl

theorem mem_addrs_replaceAt {t u : BinaryTree (ℕ × α)} {p : Path} {a : ℕ} (ha : a ∈ addrs (t.replaceAt p u)) :
    a ∈ addrs t ∨ a ∈ addrs u := by
  induction p generalizing t with
  | nil => exact .inr ha
  | cons s p ih =>
    cases t with
    | nil => exact .inl ha
    | node v l r =>
      cases s <;> simp only [replaceAt_cons, child_left, child_right, setChild, addrs_node, List.mem_cons,
        List.mem_append] at ha ⊢
      · rcases ha with ha | ha | ha
        · exact .inl (.inl ha)
        · exact (ih ha).imp (fun h => .inr (.inl h)) id
        · exact .inl (.inr (.inr ha))
      · rcases ha with ha | ha | ha
        · exact .inl (.inl ha)
        · exact .inl (.inr (.inl ha))
        · exact (ih ha).imp (fun h => .inr (.inr h)) id

/-- The new subtree may share what it replaces. -/
theorem nodup_replaceAt {t u : BinaryTree (ℕ × α)} {p : Path} (ht : (addrs t).Nodup) (hu : (addrs u).Nodup)
    (hshared : ∀ a ∈ addrs u, a ∈ addrs t → a ∈ addrs (t.subtreeAt p)) : (addrs (t.replaceAt p u)).Nodup := by
  induction p generalizing t with
  | nil => exact hu
  | cons s p ih =>
    cases t with
    | nil => exact ht
    | node v l r =>
      rw [addrs_node, List.nodup_cons, List.mem_append, List.nodup_append] at ht
      obtain ⟨hv,hl,hr,hlr⟩ := ht
      simp only [addrs_node, List.mem_cons, List.mem_append] at hshared
      cases s <;> simp only [replaceAt_cons, child_left, child_right, setChild, addrs_node, List.nodup_cons,
        List.mem_append, List.nodup_append]
      · have hsub : ∀ a ∈ addrs u, a = v.1 ∨ a ∈ addrs l ∨ a ∈ addrs r → a ∈ addrs l :=
          fun a ha hat => (addrs_subtreeAt_sublist l p).subset (hshared a ha hat)
        refine ⟨?_,ih hl fun a ha hal => hshared a ha (.inr (.inl hal)),hr,fun a ha b hb heq => ?_⟩
        · rintro (h | h)
          · exact hv (.inl ((mem_addrs_replaceAt h).elim id fun hmem => hsub _ hmem (.inl rfl)))
          · exact hv (.inr h)
        · rcases mem_addrs_replaceAt ha with h | h
          · exact hlr a h b hb heq
          · exact hlr a (hsub a h (.inr (.inr (heq ▸ hb)))) b hb heq
      · have hsub : ∀ a ∈ addrs u, a = v.1 ∨ a ∈ addrs l ∨ a ∈ addrs r → a ∈ addrs r :=
          fun a ha hat => (addrs_subtreeAt_sublist r p).subset (hshared a ha hat)
        refine ⟨?_,hl,ih hr fun a ha har => hshared a ha (.inr (.inr har)),fun a ha b hb heq => ?_⟩
        · rintro (h | h)
          · exact hv (.inl h)
          · exact hv (.inr ((mem_addrs_replaceAt h).elim id fun hmem => hsub _ hmem (.inl rfl)))
        · rcases mem_addrs_replaceAt hb with h | h
          · exact hlr a ha b h heq
          · exact hlr a ha b (hsub b h (.inr (.inl (heq ▸ ha)))) heq

/-- Besides all that memory had, it now has a tree of new cells. -/
structure NewTree (h h' : Heap α) (t : BinaryTree (ℕ × α)) : Prop where
  ext : Extends h h'
  holds : Holds h' t
  nodup : (addrs t).Nodup
  fresh : ∀ a ∈ addrs t, h.next ≤ a

theorem NewTree.nil {h h' : Heap α} (hext : Extends h h') : NewTree h h' .nil :=
  ⟨hext,trivial,List.nodup_nil,fun _ ha => absurd ha (List.not_mem_nil)⟩

/-- Two new trees and a new cell above them. -/
theorem NewTree.node {h h₁ h₂ h₃ : Heap α} {l r : BinaryTree (ℕ × α)} {v : ℕ × α} (hl : NewTree h h₁ l)
    (hr : NewTree h₁ h₂ r) (hext : Extends h₂ h₃) (hv : Holds h₃ (.node v l r)) (hnext : v.1 = h₂.next) :
    NewTree h h₃ (.node v l r) := by
  have hlold : ∀ a ∈ addrs l, a < h₁.next := fun a ha => hl.holds.lt ha
  have hrold : ∀ a ∈ addrs r, a < h₂.next := fun a ha => hr.holds.lt ha
  have hle₁ := hl.ext.next
  have hle₂ := hr.ext.next
  refine ⟨(hl.ext.trans hr.ext).trans hext,hv,?_,fun a ha => ?_⟩
  · rw [addrs_node, List.nodup_cons, List.mem_append, List.nodup_append]
    refine ⟨?_,hl.nodup,hr.nodup,fun a ha b hb heq => ?_⟩
    · rintro (ha | ha)
      · have hlt := hlold _ ha
        omega
      · have hlt := hrold _ ha
        omega
    · have hlt := hlold a ha
      have hge := hr.fresh b hb
      omega
  · rw [addrs_node, List.mem_cons, List.mem_append] at ha
    rcases ha with rfl | ha | ha
    · omega
    · exact hl.fresh a ha
    · have hge := hr.fresh a ha
      omega

theorem ptr_replaceAt_below (t u : BinaryTree (ℕ × α)) {p : Path} (hp : p ≠ []) :
    ptr (t.replaceAt p u) = ptr t := by
  rcases p with _ | ⟨s,p⟩
  · exact absurd rfl hp
  · cases t with
    | nil => rfl
    | node v l r => cases s <;> rfl

/-- Overwriting the cell of one node replaces that node and what hangs below it. -/
theorem Holds.write {h h' : Heap α} {t l r l' r' : BinaryTree (ℕ × α)} {p : Path} {v : ℕ × α} {w : α}
    (ht : Holds h t) (hnodup : (addrs t).Nodup) (hp : t.subtreeAt p = .node v l r) (hl' : Holds h l')
    (hr' : Holds h r') (hl : v.1 ∉ addrs l') (hr : v.1 ∉ addrs r')
    (hw : Writes h h' v.1 ⟨w,ptr l',ptr r'⟩) : Holds h' (t.replaceAt p (.node (v.1, w) l' r')) := by
  have hother : ∀ {u : BinaryTree (ℕ × α)}, Holds h u → v.1 ∉ addrs u → Holds h' u := fun hu hv =>
    hu.congr fun a ha => hw.other a fun heq => hv (heq ▸ ha)
  induction p generalizing t with
  | nil => exact ⟨hw.self,hother hl' hl,hother hr' hr⟩
  | cons s p ih =>
    cases t with
    | nil => simp at hp
    | node b tl tr =>
      rw [addrs_node, List.nodup_cons, List.mem_append, List.nodup_append] at hnodup
      obtain ⟨hb,hndl,hndr,hlr⟩ := hnodup
      obtain ⟨hcell,htl,htr⟩ := ht
      cases s with
      | left =>
        rw [subtreeAt_cons, child_left] at hp
        have hv : v.1 ∈ addrs tl := mem_addrs_subtreeAt (p := p) (by rw [hp, ptr_node])
        refine ⟨?_,ih htl hndl hp,hother htr fun hv' => hlr _ hv _ hv' rfl⟩
        have hne : b.1 ≠ v.1 := fun heq => hb (.inl (heq ▸ hv))
        rw [hw.other _ hne, hcell]
        exact congrArg (fun q => some (Cell.mk b.2 q _)) (ptr_replaceAt (by rw [hp]; rfl)).symm
      | right =>
        rw [subtreeAt_cons, child_right] at hp
        have hv : v.1 ∈ addrs tr := mem_addrs_subtreeAt (p := p) (by rw [hp, ptr_node])
        refine ⟨?_,hother htl fun hv' => hlr _ hv' _ hv rfl,ih htr hndr hp⟩
        have hne : b.1 ≠ v.1 := fun heq => hb (.inr (heq ▸ hv))
        rw [hw.other _ hne, hcell]
        exact congrArg (fun q => some (Cell.mk b.2 _ q)) (ptr_replaceAt (by rw [hp]; rfl)).symm

/-- A new tree becomes a child of the root of another new tree. -/
theorem NewTree.setChild {h h₁ h₂ h₃ : Heap α} {m : ℕ} {k : α} {l r u : BinaryTree (ℕ × α)} {s : Side}
    (ht : NewTree h h₁ (.node (m, k) l r)) (hu : NewTree h₁ h₂ u)
    (hw : Writes h₂ h₃ m (Cell.setSide s (ptr u) ⟨k,ptr l,ptr r⟩)) :
    NewTree h h₃ (BinaryTree.setChild s u (.node (m, k) l r)) := by
  have hm : h.next ≤ m := ht.fresh m (by simp)
  have hmlt : m < h₁.next := lt_next ht.holds.1
  have hmu : m ∉ addrs u := fun hmem => absurd (hu.fresh m hmem) (by omega)
  have hnodup := ht.nodup
  rw [addrs_node, List.nodup_cons, List.mem_append, not_or, List.nodup_append] at hnodup
  obtain ⟨⟨hml,hmr⟩,hndl,hndr,-⟩ := hnodup
  have hold := ht.holds.keep hu.ext
  have hext : Extends h h₃ := by
    refine ⟨(ht.ext.next.trans hu.ext.next).trans hw.next.ge,fun a ha => ?_⟩
    have hle := ht.ext.next
    rw [hw.other a (by omega), hu.ext.cell a (by omega), ht.ext.cell a ha]
  have hlu : ∀ {t : BinaryTree (ℕ × α)}, Holds h₁ t → ∀ a ∈ addrs t, ∀ c ∈ addrs u, a ≠ c := by
    intro t ht' a ha c hc heq
    have hlt := ht'.lt ha
    have hge := hu.fresh c hc
    omega
  have hufresh : ∀ a ∈ addrs u, h.next ≤ a := fun a ha => ht.ext.next.trans (hu.fresh a ha)
  have hlfresh : ∀ a ∈ addrs l, h.next ≤ a := fun a ha => ht.fresh a (by simp [ha])
  have hrfresh : ∀ a ∈ addrs r, h.next ≤ a := fun a ha => ht.fresh a (by simp [ha])
  cases s with
  | left =>
    refine ⟨hext,hold.write ht.nodup (p := []) rfl hu.holds hold.2.2 hmu hmr hw,?_,fun a ha => ?_⟩
    · rw [BinaryTree.setChild, addrs_node, List.nodup_cons, List.mem_append, not_or, List.nodup_append]
      exact ⟨⟨hmu,hmr⟩,hu.nodup,hndr,fun a ha c hc => (hlu ht.holds.2.2 c hc a ha).symm⟩
    · rw [BinaryTree.setChild, addrs_node, List.mem_cons, List.mem_append] at ha
      rcases ha with rfl | ha | ha
      · exact hm
      · exact hufresh a ha
      · exact hrfresh a ha
  | right =>
    refine ⟨hext,hold.write ht.nodup (p := []) rfl hold.2.1 hu.holds hml hmu hw,?_,fun a ha => ?_⟩
    · rw [BinaryTree.setChild, addrs_node, List.nodup_cons, List.mem_append, not_or, List.nodup_append]
      exact ⟨⟨hml,hmu⟩,hndl,hu.nodup,fun a ha c hc => hlu ht.holds.2.1 a ha c hc⟩
    · rw [BinaryTree.setChild, addrs_node, List.mem_cons, List.mem_append] at ha
      rcases ha with rfl | ha | ha
      · exact hm
      · exact hlfresh a ha
      · exact hufresh a ha

end TreeHeap
