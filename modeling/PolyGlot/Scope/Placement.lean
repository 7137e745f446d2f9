import PolyGlot.Scope.Mirror

set_option autoImplicit false

/-! # Scopes outside of any scope

Leaving the first scope that has no parent clears the current scope and keeps
the root. `EnterScope` asks for the root only, so no further scope can be opened
outside of every scope.
-/
namespace PolyGlot

open BinaryTree

namespace IR

/-- The scoped nodes without a scoped proper ancestor, in pre-order. -/
def topScopes : IR → List Path
  | .nil => []
  | .node n l r =>
    if n.scopeType ≠ .kScopeDefault then [[]]
    else (topScopes l).map (.left :: ·) ++ (topScopes r).map (.right :: ·)

theorem topScopes_scoped {n : IRNode} {l r : IR} (h : n.scopeType ≠ .kScopeDefault) :
    topScopes (.node n l r) = [[]] := if_pos h

theorem topScopes_plain {n : IRNode} {l r : IR} (h : n.scopeType = .kScopeDefault) :
    topScopes (.node n l r) = (topScopes l).map (.left :: ·) ++ (topScopes r).map (.right :: ·) :=
  if_neg (not_not.mpr h)

theorem mem_topScopes {t : IR} {q : Path} : q ∈ topScopes t ↔ scopedAncestors t q = [q] := by
  induction t generalizing q with
  | nil =>
    have hnil : ∀ q, scopedAncestors .nil q = [] := by
      intro q
      induction q with
      | nil => rfl
      | cons s q ih => simp [scopedAncestors, ih]
    simp [topScopes, hnil]
  | node n l r ihl ihr =>
    by_cases hn : n.scopeType ≠ .kScopeDefault
    · rw [topScopes_scoped hn, List.mem_singleton]
      cases q with
      | nil => simp [scopedAncestors, isScoped, hn]
      | cons s q =>
        rw [scopedAncestors, if_pos (isScoped_iff.mpr hn)]
        cases scopedAncestors ((BinaryTree.node n l r).child s) q <;> simp
    · rw [topScopes_plain (not_not.mp hn)]
      cases q with
      | nil => simp [scopedAncestors, isScoped, hn]
      | cons s q =>
        rw [scopedAncestors, if_neg (mt isScoped_iff.mp hn), List.append_nil]
        cases s with
        | left => simp [ihl, List.map_eq_singleton_iff]
        | right => simp [ihr, List.map_eq_singleton_iff]

theorem topScopes_nodup (t : IR) : t.topScopes.Nodup := by
  induction t with
  | nil => exact List.nodup_nil
  | node n l r ihl ihr =>
    by_cases hn : n.scopeType ≠ .kScopeDefault
    · rw [topScopes_scoped hn]
      exact List.nodup_singleton _
    · rw [topScopes_plain (not_not.mp hn), List.nodup_append']
      have hcons : ∀ s : Side, Function.Injective (s :: · : Path → Path) := fun s p q h => (List.cons.inj h).2
      refine ⟨ihl.map (hcons _),ihr.map (hcons _),?_⟩
      intro p hl hr
      obtain ⟨q,_,rfl⟩ := List.mem_map.mp hl
      obtain ⟨q',_,h⟩ := List.mem_map.mp hr
      cases h

end IR

section
variable {st st' : ScopeTree} {n : IRNode} {l r u : IR}

/-- A node outside of every scope that opens none is left as it is. -/
theorem buildScopeTreeImpl_plain (hn : n.scopeType = .kScopeDefault) (hcur : st.current = none) :
    buildScopeTreeImpl (.node n l r) st = (do
      let (l, st) ← buildScopeTreeImpl l st
      let (r, st) ← buildScopeTreeImpl r st
      return (.node n l r, st)) := by
  simp only [buildScopeTreeImpl, hn, ne_eq, not_true_eq_false, if_false, bind, Except.bind, hcur]

theorem buildScopeTreeImpl_of_none (hu : u.topScopes = []) (hcur : st.current = none) :
    buildScopeTreeImpl u st = .ok (u,st) := by
  induction u with
  | nil => rfl
  | node n l r ihl ihr =>
    by_cases hn : n.scopeType = .kScopeDefault
    · rw [IR.topScopes_plain hn, List.append_eq_nil_iff, List.map_eq_nil_iff, List.map_eq_nil_iff] at hu
      rw [buildScopeTreeImpl_plain hn hcur, ihl hu.1]
      simp [bind, Except.bind, ihr hu.2, pure, Except.pure]
    · rw [IR.topScopes_scoped hn] at hu
      cases hu

/-- After the root scope was left the next one dereferences the current scope. -/
theorem buildScopeTreeImpl_nullDeref (hu : u.topScopes ≠ []) (hroot : st.root ≠ none) (hcur : st.current = none) :
    buildScopeTreeImpl u st = .error .nullDeref := by
  induction u with
  | nil => exact absurd rfl hu
  | node n l r ihl ihr =>
    by_cases hn : n.scopeType = .kScopeDefault
    · rw [buildScopeTreeImpl_plain hn hcur]
      by_cases hl : IR.topScopes l = []
      · have hr : IR.topScopes r ≠ [] := by
          intro hr
          rw [IR.topScopes_plain hn, hl, hr] at hu
          exact hu rfl
        rw [buildScopeTreeImpl_of_none hl hcur]
        simp [bind, Except.bind, ihr hr]
      · simp [bind, Except.bind, ihl hl]
    · have henter : st.enterScope n.scopeType = .error .nullDeref := by
        unfold ScopeTree.enterScope
        split
        · contradiction
        · rfl
        · rename_i hsome
          rw [hcur] at hsome
          cases hsome
      simp [buildScopeTreeImpl, hn, henter, bind, Except.bind]

/-- A walk from outside of every scope that opened the scope of the node at `q`
there, and left it. -/
structure OpenedOnce (u u' : IR) (q : Path) (st' : ScopeTree) : Prop where
  root : st'.root ≠ none
  current : st'.current = none
  scope : ∃ n l r s, u.subtreeAt q = .node n l r ∧ st'.getScopeById (IR.scopeIdAt u' q) = some s ∧
    s.scopeType = n.scopeType ∧ s.parent = none

theorem buildScopeTreeImpl_one {q : Path} (hu : u.topScopes = [q]) (hroot : st.root = none) (hcur : st.current = none) :
    ∃ u' st', buildScopeTreeImpl u st = .ok (u',st') ∧ OpenedOnce u u' q st' := by
  induction u generalizing q st with
  | nil => cases hu
  | node n l r ihl ihr =>
    by_cases hn : n.scopeType = .kScopeDefault
    · rw [IR.topScopes_plain hn, List.append_eq_singleton_iff] at hu
      rw [buildScopeTreeImpl_plain hn hcur]
      rcases hu with ⟨hl,hr⟩ | ⟨hl,hr⟩
      · rw [List.map_eq_nil_iff] at hl
        obtain ⟨q',hq',rfl⟩ := List.map_eq_singleton_iff.mp hr
        obtain ⟨r',st',hrun,hopened⟩ := ihr hq' hroot hcur
        rw [buildScopeTreeImpl_of_none hl hcur]
        refine ⟨.node n l r',st',by simp [bind, Except.bind, hrun, pure, Except.pure],hopened.root,hopened.current,?_⟩
        exact hopened.scope
      · rw [List.map_eq_nil_iff] at hr
        obtain ⟨q',hq',rfl⟩ := List.map_eq_singleton_iff.mp hl
        obtain ⟨l',st',hrun,hopened⟩ := ihl hq' hroot hcur
        have hrest := buildScopeTreeImpl_of_none hr hopened.current
        refine ⟨.node n l' r,st',by simp [bind, Except.bind, hrun, hrest, pure, Except.pure],hopened.root,
          hopened.current,?_⟩
        exact hopened.scope
    · rw [IR.topScopes_scoped hn, List.cons.injEq] at hu
      obtain ⟨rfl,_⟩ := hu
      have hscoped := IR.isScoped_iff (l := l) (r := r).mpr hn
      obtain ⟨u',st',hrun,hbuilt⟩ := buildScopeTreeImpl_built (.node n l r) st (by simp [hroot, hcur]) (.inr hscoped)
      refine ⟨u',st',hrun,?_,hbuilt.current.trans hcur,?_⟩
      · rw [hbuilt.root, hroot]
        simp
      · obtain ⟨s,hs,htype,_,hparent⟩ := hbuilt.scopes [] n l r rfl hn
        refine ⟨n,l,r,s,rfl,hs,htype,?_⟩
        rw [hparent, IR.scopedAncestors, if_pos hscoped]
        exact hcur

/-- The second scope outside of every scope stops the walk. -/
theorem buildScopeTreeImpl_two (hu : 2 ≤ u.topScopes.length) (hroot : st.root = none) (hcur : st.current = none) :
    buildScopeTreeImpl u st = .error .nullDeref := by
  induction u with
  | nil => simp [IR.topScopes] at hu
  | node n l r ihl ihr =>
    by_cases hn : n.scopeType = .kScopeDefault
    · rw [IR.topScopes_plain hn, List.length_append, List.length_map, List.length_map] at hu
      rw [buildScopeTreeImpl_plain hn hcur]
      rcases hl : IR.topScopes l with _ | ⟨q,_ | ⟨q',qs⟩⟩
      · rw [buildScopeTreeImpl_of_none hl hcur]
        simp [bind, Except.bind, ihr (by simpa [hl] using hu)]
      · obtain ⟨l',st',hrun,hopened⟩ := buildScopeTreeImpl_one hl hroot hcur
        have hr : IR.topScopes r ≠ [] := by
          rintro hr
          simp [hl, hr] at hu
        simp [bind, Except.bind, hrun, buildScopeTreeImpl_nullDeref hr hopened.root hopened.current]
      · simp [bind, Except.bind, ihl (by simp [hl])]
    · simp [IR.topScopes_scoped hn] at hu

end

/-- `BuildTree` opens a scope without parent for every scoped node that no scope
is around, exactly when there is at most one such node. -/
theorem buildTree_topScopes_iff (root : IR) :
    (∃ root' st, buildTree root = .ok (root',st) ∧ ∀ q, IR.scopedAncestors root q = [q] →
      ∃ n l r s, root.subtreeAt q = .node n l r ∧ st.getScopeById (IR.scopeIdAt root' q) = some s ∧
        s.scopeType = n.scopeType ∧ s.parent = none) ↔
    ∀ p q, IR.scopedAncestors root p = [p] → IR.scopedAncestors root q = [q] → p = q := by
  simp only [← IR.mem_topScopes]
  have hroot : ScopeTree.empty.root = none := rfl
  have hcur : ScopeTree.empty.current = none := rfl
  rcases htop : root.topScopes with _ | ⟨p,_ | ⟨q,qs⟩⟩
  · have hrun := buildScopeTreeImpl_of_none htop hcur
    constructor
    · intro _ p q hp
      cases hp
    · intro _
      exact ⟨root,.empty,hrun,fun q hq => by cases hq⟩
  · obtain ⟨root',st,hrun,hopened⟩ := buildScopeTreeImpl_one htop hroot hcur
    constructor
    · intro _ a b ha hb
      rw [List.mem_singleton.mp ha, List.mem_singleton.mp hb]
    · intro _
      refine ⟨root',st,hrun,fun q hq => ?_⟩
      rw [List.mem_singleton.mp hq]
      exact hopened.scope
  · have hrun : buildTree root = .error .nullDeref := buildScopeTreeImpl_two (by simp [htop]) hroot hcur
    constructor
    · rintro ⟨root',st,hok,_⟩
      rw [hrun] at hok
      cases hok
    · intro h
      have hnodup := root.topScopes_nodup
      have heq := h p q (by simp) (by simp)
      simp [htop, heq] at hnodup

def twoBlocks : IR :=
  let plain : IRNode := ⟨5,some .empty,.monostate,.kDataDefault,.kScopeDefault,0,0⟩
  let block : IR := .node { plain with scopeType := .kScopeStatement } .nil .nil
  .node plain block block

theorem twoBlocks_nullDeref : buildTree twoBlocks = .error .nullDeref ∧
    ¬ ∃ root' st, buildTree twoBlocks = .ok (root',st) ∧ ∀ q, IR.scopedAncestors twoBlocks q = [q] →
      ∃ n l r s, twoBlocks.subtreeAt q = .node n l r ∧ st.getScopeById (IR.scopeIdAt root' q) = some s ∧
        s.scopeType = n.scopeType ∧ s.parent = none := by
  have hrun : buildTree twoBlocks = .error .nullDeref := buildScopeTreeImpl_two (by decide) rfl rfl
  refine ⟨hrun,?_⟩
  rintro ⟨root',st,hok,_⟩
  rw [hrun] at hok
  cases hok

end PolyGlot
