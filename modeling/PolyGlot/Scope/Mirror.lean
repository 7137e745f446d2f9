import PolyGlot.Scope.ScopeTree
import PolyGlot.Support.Prog

set_option autoImplicit false

/-! # The scope tree mirrors the tree

`BuildTree` moves a cursor over the scopes while it walks over the tree. It puts
the cursor back after each subtree, so a node gets the scope of the innermost
scoped node on its path.
-/
namespace PolyGlot

open BinaryTree Prog

namespace IR

def isScoped : IR → Bool
  | .nil => false
  | .node n _ _ => n.scopeType ≠ .kScopeDefault

/-- The scoped nodes on the way to `p`, and at `p`, the innermost first. -/
def scopedAncestors (t : IR) : Path → List Path
  | [] => if isScoped t then [[]] else []
  | s :: p => (scopedAncestors (t.child s) p).map (s :: ·) ++ if isScoped t then [[]] else []

def scopeIdAt (t : IR) (p : Path) : ScopeID :=
  match t.subtreeAt p with
  | .nil => 0
  | .node n _ _ => n.scopeId

def dropScopeIds (t : IR) : IR := t.map fun n => { n with scopeId := 0 }

@[simp] theorem scopeIdAt_root (n : IRNode) (l r : IR) : scopeIdAt (.node n l r) [] = n.scopeId := rfl
@[simp] theorem scopeIdAt_cons (t : IR) (s : Side) (p : Path) : scopeIdAt t (s :: p) = scopeIdAt (t.child s) p := rfl
@[simp] theorem isScoped_nil : isScoped .nil = false := rfl

theorem dropScopeIds_node (n : IRNode) (l r : IR) :
    dropScopeIds (.node n l r) = .node { n with scopeId := 0 } (dropScopeIds l) (dropScopeIds r) := rfl

theorem isScoped_iff {n : IRNode} {l r : IR} : isScoped (.node n l r) = true ↔ n.scopeType ≠ .kScopeDefault := by
  simp [isScoped]

theorem scopedAncestors_head {t : IR} {p : Path} (h : isScoped (t.subtreeAt p) = true) :
    ∃ rest, scopedAncestors t p = p :: rest := by
  induction p generalizing t with
  | nil => exact ⟨[],if_pos h⟩
  | cons s p ih =>
    obtain ⟨rest,hrest⟩ := ih h
    rw [scopedAncestors, hrest]
    exact ⟨_,rfl⟩

/-- From each scoped ancestor the rest of the list is seen. -/
theorem scopedAncestors_suffix {t : IR} {p q : Path} {before rest : List Path}
    (h : scopedAncestors t p = before ++ q :: rest) :
    isScoped (t.subtreeAt q) = true ∧ scopedAncestors t q = q :: rest := by
  induction p generalizing t q before rest with
  | nil =>
    rw [scopedAncestors] at h
    split at h
    · rename_i hroot
      cases before with
      | nil =>
        cases h
        exact ⟨hroot,if_pos hroot⟩
      | cons b before => simp at h
    · simp at h
  | cons s p ih =>
    have hroot : (if isScoped t then [[]] else [] : List Path) = q :: rest →
        isScoped (t.subtreeAt q) = true ∧ scopedAncestors t q = q :: rest := by
      intro h
      split at h
      · rename_i hroot
        cases h
        exact ⟨hroot,if_pos hroot⟩
      · cases h
    rw [scopedAncestors, List.append_eq_append_iff] at h
    rcases h with ⟨a,_,hend⟩ | ⟨c,hmap,hend⟩
    · cases a with
      | nil => exact hroot hend
      | cons b a => split at hend <;> simp at hend
    · cases c with
      | nil => exact hroot hend.symm
      | cons b c =>
        rw [List.cons_append, List.cons.injEq] at hend
        obtain ⟨rfl,rfl⟩ := hend
        obtain ⟨before',tail,hsplit,_,htail⟩ := List.map_eq_append_iff.mp hmap
        obtain ⟨q,rest,rfl,rfl,rfl⟩ := List.map_eq_cons_iff.mp htail
        obtain ⟨hscoped,hsame⟩ := ih hsplit
        refine ⟨hscoped,?_⟩
        rw [scopedAncestors, hsame]
        rfl

end IR

def ScopeTree.Extends (st st' : ScopeTree) : Prop :=
  ∀ (id : ScopeID) (s : Scope), st.scopes[id]? = some s → ∃ s', st'.scopes[id]? = some s' ∧
    s'.parent = s.parent ∧ s'.scopeType = s.scopeType ∧ s'.symbolTable = s.symbolTable

theorem ScopeTree.Extends.refl (st : ScopeTree) : st.Extends st := fun _ s hs => ⟨s,hs,rfl,rfl,rfl⟩

theorem ScopeTree.Extends.trans {st st₁ st₂ : ScopeTree} (h : st.Extends st₁) (h₁ : st₁.Extends st₂) :
    st.Extends st₂ := by
  intro id s hs
  obtain ⟨s₁,hs₁,hparent,htype,htable⟩ := h id s hs
  obtain ⟨s₂,hs₂,hparent₂,htype₂,htable₂⟩ := h₁ id s₁ hs₁
  exact ⟨s₂,hs₂,hparent₂.trans hparent,htype₂.trans htype,htable₂.trans htable⟩

/-- Every scope id of the tree `u'` is that of its scope: what a walk over `u`
that starts with the scopes `st` leaves behind. -/
structure Built (u u' : IR) (st st' : ScopeTree) : Prop where
  same : u'.dropScopeIds = u.dropScopeIds
  current : st'.current = st.current
  root : st'.root = (st.root <|> some (IR.scopeIdAt u' []))
  counter : st.counter ≤ st'.counter
  old : st.Extends st'
  bounds : ∀ q, IR.isScoped (u.subtreeAt q) = true →
    st.counter < IR.scopeIdAt u' q ∧ IR.scopeIdAt u' q ≤ st'.counter
  onto : ∀ id, st.counter < id → id ≤ st'.counter →
    ∃ q, IR.isScoped (u.subtreeAt q) = true ∧ IR.scopeIdAt u' q = id
  injective : ∀ q r, IR.isScoped (u.subtreeAt q) = true → IR.isScoped (u.subtreeAt r) = true →
    IR.scopeIdAt u' q = IR.scopeIdAt u' r → q = r
  place : ∀ q, u.subtreeAt q ≠ .nil →
    some (IR.scopeIdAt u' q) = ((IR.scopedAncestors u q).head?.map (IR.scopeIdAt u') <|> st.current)
  scopes : ∀ q n l r, u.subtreeAt q = .node n l r → n.scopeType ≠ .kScopeDefault →
    ∃ s, st'.scopes[IR.scopeIdAt u' q]? = some s ∧ s.scopeType = n.scopeType ∧ s.symbolTable = ∅ ∧
      s.parent = ((IR.scopedAncestors u q).tail.head?.map (IR.scopeIdAt u') <|> st.current)

section
variable {u u' l l' r r' : IR} {st st' st₁ st₂ st₃ : ScopeTree} {n : IRNode} {cur : ScopeID}

theorem Built.nil (h : st.root ≠ none) : Built .nil .nil st st := by
  obtain ⟨root,hroot⟩ := Option.ne_none_iff_exists'.mp h
  refine ⟨rfl,rfl,by rw [hroot]; rfl,le_rfl,.refl st,?_,fun id h h' => ?_,?_,?_,?_⟩
  · simp
  · exact absurd h (not_lt.mpr h')
  · simp
  · simp
  · simp

structure Entered (n : IRNode) (st st₁ : ScopeTree) (cur : ScopeID) : Prop where
  current : st₁.current = some cur
  root : st₁.root = (st.root <|> some cur)
  old : st.Extends st₁
  plain : n.scopeType = .kScopeDefault → st.current = some cur ∧ st₁.counter = st.counter
  opens : n.scopeType ≠ .kScopeDefault → cur = st.counter + 1 ∧ st₁.counter = st.counter + 1 ∧
    st₁.scopes[cur]? = some ⟨cur,st.current,n.scopeType,∅,∅⟩

theorem enterScope_eq (h : st.root = none ↔ st.current = none) (scopeType : ScopeType) :
    st.enterScope scopeType = .ok (st.genScope scopeType st.current st.current_mem) := by
  unfold ScopeTree.enterScope
  split
  · rename_i hroot
    congr 2
    exact (h.mp hroot).symm
  · rename_i hroot hcur
    rw [h.mpr hcur] at hroot
    cases hroot
  · rename_i hcur
    congr 2
    exact hcur.symm

theorem exitScope_eq {s : Scope} (hcur : st.current = some cur) (hs : st.scopes[cur]? = some s) :
    ∃ st', st.exitScope = .ok st' ∧ st'.scopes = st.scopes ∧ st'.counter = st.counter ∧ st'.root = st.root ∧
      st'.current = s.parent := by
  unfold ScopeTree.exitScope
  split
  · rename_i h
    rw [hcur, Option.bind_some, hs] at h
    cases h
  · rename_i s' h
    rw [hcur, Option.bind_some, hs] at h
    cases h
    exact ⟨_,rfl,rfl,rfl,rfl,rfl⟩

theorem entered (hroot : st.root = none ↔ st.current = none)
    (hstart : st.current ≠ none ∨ n.scopeType ≠ .kScopeDefault) :
    ∃ st₁ cur, (if n.scopeType ≠ .kScopeDefault then st.enterScope n.scopeType else .ok st) = .ok st₁ ∧
      Entered n st st₁ cur := by
  by_cases hscoped : n.scopeType ≠ .kScopeDefault
  · refine ⟨_,st.counter + 1,by rw [if_pos hscoped, enterScope_eq hroot],rfl,rfl,?_,fun h => absurd h hscoped,
      fun _ => ⟨rfl,rfl,?_⟩⟩
    · intro id s hs
      have hne : st.counter + 1 ≠ id := by
        rintro rfl
        have hmem := Std.TreeMap.mem_iff_isSome_getElem?.mpr (Option.isSome_of_eq_some hs)
        exact absurd ((st.ok.ids _).mp hmem).2 (Nat.not_succ_le_self _)
      change ∃ s', (withScope _ _ _ _)[id]? = some s' ∧ _
      rw [getElem?_withScope, if_neg hne, hs]
      split
      · exact ⟨_,rfl,rfl,rfl,rfl⟩
      · exact ⟨_,rfl,rfl,rfl,rfl⟩
    · change (withScope _ _ _ _)[_]? = _
      rw [getElem?_withScope, if_pos rfl]
  · obtain ⟨cur,hcur⟩ := Option.ne_none_iff_exists'.mp (hstart.resolve_right hscoped)
    have hne : st.root ≠ none := by
      rw [Ne, hroot, hcur]
      simp
    obtain ⟨root,hrt⟩ := Option.ne_none_iff_exists'.mp hne
    refine ⟨st,cur,if_neg hscoped,hcur,by rw [hrt]; rfl,.refl st,fun _ => ⟨hcur,rfl⟩,
      fun h => absurd h hscoped⟩

/-- What is seen first on the way out of a child, seen from the node. -/
theorem Entered.outward (h : Entered n st st₁ cur) {x y : IR} {s : Side} {u : IR}
    (hu : IR.isScoped u = true ↔ n.scopeType ≠ .kScopeDefault) (hroot : IR.scopeIdAt x [] = cur)
    (hchild : x.child s = y) (paths : List Path) :
    ((paths.map (s :: ·) ++ if IR.isScoped u then [[]] else []).head?.map (IR.scopeIdAt x) <|> st.current) =
      (paths.head?.map (IR.scopeIdAt y) <|> some cur) := by
  cases paths with
  | nil =>
    by_cases hn : n.scopeType ≠ .kScopeDefault
    · simp [hu.mpr hn, hroot]
    · simp [mt hu.mp hn, (h.plain (not_not.mp hn)).1]
  | cons q paths => simp [hchild]

/-- A scope of a child, seen from the node. -/
theorem Built.scopes_child (h : Entered n st st₁ cur) {x y c u : IR} {s : Side} {stc stc' : ScopeTree}
    (hb : Built c y stc stc') (hcur : stc.current = some cur) (hext : stc'.Extends st')
    (hu : IR.isScoped u = true ↔ n.scopeType ≠ .kScopeDefault) (hroot : IR.scopeIdAt x [] = cur)
    (hchild : x.child s = y) (huc : u.child s = c) (q : Path) (m : IRNode) (a b : IR)
    (hq : c.subtreeAt q = .node m a b) (hm : m.scopeType ≠ .kScopeDefault) :
    ∃ sc, st'.scopes[IR.scopeIdAt x (s :: q)]? = some sc ∧ sc.scopeType = m.scopeType ∧ sc.symbolTable = ∅ ∧
      sc.parent = ((IR.scopedAncestors u (s :: q)).tail.head?.map (IR.scopeIdAt x) <|> st.current) := by
  obtain ⟨sc,hsc,htype,htable,hparent⟩ := hb.scopes q m a b hq hm
  obtain ⟨sc',hsc',hparent',htype',htable'⟩ := hext _ sc hsc
  refine ⟨sc',?_,htype'.trans htype,htable'.trans htable,?_⟩
  · rw [IR.scopeIdAt_cons, hchild]
    exact hsc'
  · have hscoped : IR.isScoped (c.subtreeAt q) = true := by
      rw [hq]
      exact IR.isScoped_iff.mpr hm
    obtain ⟨rest,hrest⟩ := IR.scopedAncestors_head hscoped
    have hout := h.outward hu hroot hchild rest
    rw [hparent', hparent, hcur, IR.scopedAncestors, huc, hrest]
    simpa using hout.symm

theorem Entered.counter_le (h : Entered n st st₁ cur) : st.counter ≤ st₁.counter := by
  by_cases hn : n.scopeType = .kScopeDefault
  · exact (h.plain hn).2.ge
  · rw [(h.opens hn).2.1]
    exact Nat.le_succ _

theorem Entered.cur_eq (h : Entered n st st₁ cur) (hn : n.scopeType ≠ .kScopeDefault) : cur = st₁.counter := by
  rw [(h.opens hn).1, (h.opens hn).2.1]

/-- The ids of the node, of the left and of the right child are in this order. -/
theorem Built.scopeId_cases (hl : Built l l' st₁ st₂) (hr : Built r r' st₂ st₃) {q : Path}
    (hq : IR.isScoped ((BinaryTree.node n l r).subtreeAt q) = true) :
    (q = [] ∧ n.scopeType ≠ .kScopeDefault) ∨
    (∃ q', q = .left :: q' ∧ IR.isScoped (l.subtreeAt q') = true ∧
      st₁.counter < IR.scopeIdAt l' q' ∧ IR.scopeIdAt l' q' ≤ st₂.counter) ∨
    (∃ q', q = .right :: q' ∧ IR.isScoped (r.subtreeAt q') = true ∧
      st₂.counter < IR.scopeIdAt r' q' ∧ IR.scopeIdAt r' q' ≤ st₃.counter) := by
  cases q with
  | nil => exact .inl ⟨rfl,IR.isScoped_iff.mp hq⟩
  | cons s q =>
    cases s with
    | left => exact .inr (.inl ⟨q,rfl,hq,hl.bounds q hq⟩)
    | right => exact .inr (.inr ⟨q,rfl,hq,hr.bounds q hq⟩)

/-- Every id given out is that of the node, of the left or of the right child. -/
theorem Built.node_onto (h : Entered n st st₁ cur) (hl : Built l l' st₁ st₂) (hr : Built r r' st₂ st₃) {id : ScopeID}
    (hlow : st.counter < id) (hhigh : id ≤ st₃.counter) :
    ∃ q, IR.isScoped ((BinaryTree.node n l r).subtreeAt q) = true ∧
      IR.scopeIdAt (.node { n with scopeId := cur } l' r') q = id := by
  by_cases hid₁ : id ≤ st₁.counter
  · by_cases hn : n.scopeType = .kScopeDefault
    · exact absurd (hid₁.trans (h.plain hn).2.le) (not_le.mpr hlow)
    · obtain ⟨hcid,hcount,_⟩ := h.opens hn
      refine ⟨[],IR.isScoped_iff.mpr hn,?_⟩
      rw [IR.scopeIdAt_root, hcid]
      exact le_antisymm hlow (hcount ▸ hid₁)
  · by_cases hid₂ : id ≤ st₂.counter
    · obtain ⟨q,hq,hqid⟩ := hl.onto id (not_le.mp hid₁) hid₂
      exact ⟨.left :: q,hq,hqid⟩
    · obtain ⟨q,hq,hqid⟩ := hr.onto id (not_le.mp hid₂) hhigh
      exact ⟨.right :: q,hq,hqid⟩

theorem Built.node_injective (h : Entered n st st₁ cur) (hl : Built l l' st₁ st₂) (hr : Built r r' st₂ st₃) {q p : Path}
    (hq : IR.isScoped ((BinaryTree.node n l r).subtreeAt q) = true)
    (hp : IR.isScoped ((BinaryTree.node n l r).subtreeAt p) = true)
    (hsame : IR.scopeIdAt (.node { n with scopeId := cur } l' r') q = IR.scopeIdAt (.node { n with scopeId := cur } l' r') p) :
    q = p := by
  rcases hl.scopeId_cases hr hq with ⟨rfl,hn⟩ | ⟨q,rfl,hq',hlow,hhigh⟩ | ⟨q,rfl,hq',hlow,hhigh⟩ <;>
    rcases hl.scopeId_cases hr hp with ⟨rfl,hn'⟩ | ⟨p,rfl,hp',hlow',hhigh'⟩ | ⟨p,rfl,hp',hlow',hhigh'⟩ <;>
    simp only [IR.scopeIdAt_cons, IR.scopeIdAt_root, BinaryTree.child_left, BinaryTree.child_right] at hsame
  · rfl
  · rw [h.cur_eq hn] at hsame
    exact absurd hsame hlow'.ne
  · rw [h.cur_eq hn] at hsame
    exact absurd hsame (lt_of_le_of_lt hl.counter hlow').ne
  · rw [h.cur_eq hn'] at hsame
    exact absurd hsame hlow.ne'
  · rw [hl.injective q p hq' hp' hsame]
  · exact absurd hsame (lt_of_le_of_lt hhigh hlow').ne
  · rw [h.cur_eq hn'] at hsame
    exact absurd hsame (lt_of_le_of_lt hl.counter hlow).ne'
  · exact absurd hsame (lt_of_le_of_lt hhigh' hlow).ne'
  · rw [hr.injective q p hq' hp' hsame]

/-- The walk over a node, from the walks over its children. -/
theorem Built.node (h : Entered n st st₁ cur) (hl : Built l l' st₁ st₂) (hr : Built r r' st₂ st₃)
    (hscopes : st'.scopes = st₃.scopes) (hcounter : st'.counter = st₃.counter) (hroot : st'.root = st₃.root)
    (hcurrent : st'.current = st.current) :
    Built (.node n l r) (.node { n with scopeId := cur } l' r') st st' := by
  have hcur₂ : st₂.current = some cur := hl.current.trans h.current
  have hext₃ : st₃.Extends st' := by
    intro id s hs
    exact ⟨s,hscopes ▸ hs,rfl,rfl,rfl⟩
  have hext₂ : st₂.Extends st' := hr.old.trans hext₃
  have hext₁ : st₁.Extends st' := hl.old.trans hext₂
  have hself : IR.isScoped (.node n l r) = true ↔ n.scopeType ≠ .kScopeDefault := IR.isScoped_iff
  have hstart := h.counter_le
  have hle₁ := hl.counter
  have hle₂ := hr.counter
  constructor
  · have hsameL := hl.same
    have hsameR := hr.same
    simp only [IR.dropScopeIds, BinaryTree.map] at hsameL hsameR ⊢
    rw [hsameL, hsameR]
  · exact hcurrent
  · rw [hroot, hr.root, hl.root, h.root]
    cases st.root <;> rfl
  · rw [hcounter]
    exact (hstart.trans hle₁).trans hle₂
  · exact h.old.trans hext₁
  · intro q hq
    rw [hcounter]
    rcases hl.scopeId_cases hr hq with ⟨rfl,hn⟩ | ⟨q,rfl,_,hlow,hhigh⟩ | ⟨q,rfl,_,hlow,hhigh⟩
    · obtain ⟨hid,hcount,_⟩ := h.opens hn
      rw [IR.scopeIdAt_root, hid]
      exact ⟨Nat.lt_succ_self _,hcount ▸ hle₁.trans hle₂⟩
    · exact ⟨lt_of_le_of_lt hstart hlow,hhigh.trans hle₂⟩
    · exact ⟨lt_of_le_of_lt (hstart.trans hle₁) hlow,hhigh⟩
  · intro id hlow hhigh
    exact Built.node_onto h hl hr hlow (hcounter ▸ hhigh)
  · intro q p hq hp hsame
    exact Built.node_injective h hl hr hq hp hsame
  · intro q hq
    cases q with
    | nil =>
      by_cases hn : n.scopeType ≠ .kScopeDefault
      · rw [IR.scopedAncestors, if_pos (hself.mpr hn)]
        rfl
      · rw [IR.scopedAncestors, if_neg (mt hself.mp hn)]
        exact (h.plain (not_not.mp hn)).1.symm
    | cons s q =>
      rw [IR.scopedAncestors, h.outward hself rfl rfl]
      cases s with
      | left =>
        rw [← h.current]
        exact hl.place q hq
      | right =>
        rw [← hcur₂]
        exact hr.place q hq
  · intro q m a b hq hm
    cases q with
    | nil =>
      cases hq
      obtain ⟨_,_,hget⟩ := h.opens hm
      obtain ⟨s,hs,hparent,htype,htable⟩ := hext₁ _ _ hget
      refine ⟨s,hs,htype,htable,?_⟩
      rw [IR.scopedAncestors, if_pos (hself.mpr hm)]
      exact hparent
    | cons s q =>
      cases s with
      | left => exact hl.scopes_child h h.current hext₂ hself rfl rfl rfl q m a b hq hm
      | right => exact hr.scopes_child h hcur₂ hext₃ hself rfl rfl rfl q m a b hq hm

/-- The bracketing invariant, by induction on the tree. -/
theorem buildScopeTreeImpl_built (u : IR) (st : ScopeTree) (hroot : st.root = none ↔ st.current = none)
    (hstart : st.current ≠ none ∨ IR.isScoped u = true) :
    ∃ u' st', buildScopeTreeImpl u st = .ok (u',st') ∧ Built u u' st st' := by
  induction u generalizing st with
  | nil =>
    have hcur := hstart.resolve_right (by simp)
    exact ⟨.nil,st,rfl,.nil (mt hroot.mp hcur)⟩
  | node n l r ihl ihr =>
    obtain ⟨st₁,cur,henter,h⟩ := entered hroot (hstart.imp id IR.isScoped_iff.mp)
    have hroot₁ : st₁.root = none ↔ st₁.current = none := by
      rw [h.root, h.current]
      cases st.root <;> simp
    have hcur₁ : st₁.current ≠ none := by simp [h.current]
    obtain ⟨l',st₂,hrunl,hl⟩ := ihl st₁ hroot₁ (.inl hcur₁)
    have hcur₂ : st₂.current = some cur := hl.current.trans h.current
    have hroot₂ : st₂.root = none ↔ st₂.current = none := by
      rw [hl.root, h.root, hcur₂]
      cases st.root <;> simp
    obtain ⟨r',st₃,hrunr,hr⟩ := ihr st₂ hroot₂ (.inl (by simp [hcur₂]))
    have hcur₃ : st₃.current = some cur := hr.current.trans hcur₂
    by_cases hn : n.scopeType ≠ .kScopeDefault
    · obtain ⟨_,_,hget⟩ := h.opens hn
      obtain ⟨s,hs,hparent,_⟩ := (hl.old.trans hr.old) _ _ hget
      obtain ⟨st',hexit,hscopes,hcounter,hroot',hcurrent⟩ := exitScope_eq hcur₃ hs
      refine ⟨_,st',?_,.node h hl hr hscopes hcounter hroot' (hcurrent.trans hparent)⟩
      rw [if_pos hn] at henter
      simp only [buildScopeTreeImpl, if_pos hn, henter, bind, Except.bind, h.current, hrunl, hrunr, hexit, pure,
        Except.pure]
    · refine ⟨_,st₃,?_,.node h hl hr rfl rfl rfl (hcur₃.trans (h.plain (not_not.mp hn)).1.symm)⟩
      rw [if_neg hn] at henter
      cases henter
      simp only [buildScopeTreeImpl, if_neg hn, bind, Except.bind, h.current, hrunl, hrunr, pure, Except.pure]

/-- `GetParent`, from a pointer to a scope until it is null, visits these scopes. -/
inductive FollowsParents (st : ScopeTree) : Option ScopeID → List ScopeID → Prop
  | null : FollowsParents st none []
  | parent {id : ScopeID} {s : Scope} {rest : List ScopeID} (hs : st.getScopeById id = some s)
      (h : FollowsParents st s.parent rest) : FollowsParents st (some id) (id :: rest)

theorem FollowsParents.enclosing_eq {id : ScopeID} {ids : List ScopeID} (h : FollowsParents st (some id) ids) :
    (st.enclosing id).map (·.1) = ids := by
  induction ids generalizing id with
  | nil => cases h
  | cons i ids ih =>
    cases h with
    | parent hs h =>
      rename_i s
      rw [ScopeTree.enclosing_eq, hs, List.map_cons]
      cases hp : s.parent with
      | none =>
        rw [hp] at h
        cases h
        rfl
      | some p =>
        rw [hp] at h
        rw [ih h]

/-- `root'` is `root` with the scope ids that fit the scopes of `st`, and these
are the scopes that the nodes of `root` open. -/
structure ScopesMirror (root root' : IR) (st : ScopeTree) : Prop where
  same : root'.dropScopeIds = root.dropScopeIds
  opened : ∀ q n l r, root.subtreeAt q = .node n l r → n.scopeType ≠ .kScopeDefault →
    ∃ s, st.getScopeById (IR.scopeIdAt root' q) = some s ∧ s.scopeId = IR.scopeIdAt root' q ∧
      s.scopeType = n.scopeType ∧ s.symbolTable = ∅
  noOther : ∀ id s, st.getScopeById id = some s →
    ∃ q, IR.isScoped (root.subtreeAt q) = true ∧ IR.scopeIdAt root' q = id
  distinct : ∀ q r, IR.isScoped (root.subtreeAt q) = true → IR.isScoped (root.subtreeAt r) = true →
    IR.scopeIdAt root' q = IR.scopeIdAt root' r → q = r
  nearest : ∀ q, root.subtreeAt q ≠ .nil →
    (IR.scopedAncestors root q).head?.map (IR.scopeIdAt root') = some (IR.scopeIdAt root' q)
  parents : ∀ q, root.subtreeAt q ≠ .nil →
    FollowsParents st (some (IR.scopeIdAt root' q)) ((IR.scopedAncestors root q).map (IR.scopeIdAt root'))
  children : ∀ id s, st.getScopeById id = some s → ∀ c, c ∈ s.children ↔
    ∃ sc, st.getScopeById c = some sc ∧ sc.parent = some id
  root : st.root = some (IR.scopeIdAt root' [])

theorem Built.parent_eq (h : Built u u' .empty st) {p q : Path} {before rest : List Path}
    (hq : IR.scopedAncestors u p = before ++ q :: rest) :
    ∃ s, st.getScopeById (IR.scopeIdAt u' q) = some s ∧ s.parent = rest.head?.map (IR.scopeIdAt u') := by
  obtain ⟨hscoped,hall⟩ := IR.scopedAncestors_suffix hq
  cases hnode : u.subtreeAt q with
  | nil => simp [hnode] at hscoped
  | node n l r =>
    rw [hnode] at hscoped
    obtain ⟨s,hs,_,_,hparent⟩ := h.scopes q n l r hnode (IR.isScoped_iff.mp hscoped)
    rw [hall] at hparent
    exact ⟨s,hs,hparent.trans (by cases rest <;> rfl)⟩

/-- The scopes seen from a scoped node are those of the scoped nodes above it. -/
theorem Built.followsParents (h : Built u u' .empty st) {p q : Path} {before rest : List Path}
    (hq : IR.scopedAncestors u p = before ++ q :: rest) :
    FollowsParents st (some (IR.scopeIdAt u' q)) ((q :: rest).map (IR.scopeIdAt u')) := by
  induction rest generalizing before q with
  | nil =>
    obtain ⟨s,hs,hparent⟩ := h.parent_eq hq
    apply FollowsParents.parent hs
    rw [hparent]
    exact .null
  | cons q' rest ih =>
    obtain ⟨s,hs,hparent⟩ := h.parent_eq hq
    apply FollowsParents.parent hs
    rw [hparent]
    have hq' : IR.scopedAncestors u p = (before ++ [q]) ++ q' :: rest := by simpa using hq
    exact ih hq'

theorem Built.scopesMirror (h : Built u u' .empty st) : ScopesMirror u u' st := by
  have hplace : ∀ q, u.subtreeAt q ≠ .nil →
      (IR.scopedAncestors u q).head?.map (IR.scopeIdAt u') = some (IR.scopeIdAt u' q) := by
    intro q hq
    have hfirst := h.place q hq
    cases hhead : (IR.scopedAncestors u q).head? with
    | none =>
      rw [hhead] at hfirst
      cases hfirst
    | some p =>
      rw [hhead] at hfirst
      exact hfirst.symm
  constructor
  · exact h.same
  · intro q n l r hq hn
    obtain ⟨s,hs,htype,htable,_⟩ := h.scopes q n l r hq hn
    exact ⟨s,hs,st.ok.scopeId _ s hs,htype,htable⟩
  · intro id s hs
    have hmem : id ∈ st.scopes := Std.TreeMap.mem_iff_isSome_getElem?.mpr (Option.isSome_of_eq_some hs)
    obtain ⟨hlow,hhigh⟩ := (st.ok.ids id).mp hmem
    exact h.onto id hlow hhigh
  · exact h.injective
  · exact hplace
  · intro q hq
    have hfirst := hplace q hq
    cases hall : IR.scopedAncestors u q with
    | nil => simp [hall] at hfirst
    | cons p rest =>
      rw [hall] at hfirst
      rw [← hfirst]
      have hall' : IR.scopedAncestors u q = [] ++ p :: rest := hall
      exact h.followsParents hall'
  · exact st.ok.children
  · exact h.root

end

/-- Building the scopes changes scope ids only. -/
theorem buildScopeTreeImpl_same {t t' : IR} {st st' : ScopeTree} (h : buildScopeTreeImpl t st = .ok (t',st')) :
    t'.dropScopeIds = t.dropScopeIds := by
  induction t generalizing st t' st' with
  | nil =>
    cases h
    rfl
  | node n l r ihl ihr =>
    have hafter : ∀ {st₁ : ScopeTree} {m : IRNode}, { m with scopeId := 0 } = { n with scopeId := 0 } →
        (do
          let left ← buildScopeTreeImpl l st₁
          let right ← buildScopeTreeImpl r left.2
          let st ← if m.scopeType ≠ .kScopeDefault then right.2.exitScope else .ok right.2
          pure (.node m left.1 right.1,st)) = Except.ok (t',st') →
        t'.dropScopeIds = IR.dropScopeIds (.node n l r) := by
      intro st₁ m hm h
      obtain ⟨left,hl,h⟩ := bind_ok h
      obtain ⟨right,hr,h⟩ := bind_ok h
      have hsame : IR.dropScopeIds (.node m left.1 right.1) = IR.dropScopeIds (.node n l r) := by
        rw [IR.dropScopeIds_node, IR.dropScopeIds_node, hm, ihl hl, ihr hr]
      split at h
      · obtain ⟨_,_,h⟩ := bind_ok h
        cases h
        exact hsame
      · obtain ⟨_,_,h⟩ := bind_ok h
        cases h
        exact hsame
    by_cases hn : n.scopeType ≠ .kScopeDefault
    · simp only [buildScopeTreeImpl, if_pos hn] at h
      obtain ⟨st₁,_,h⟩ := bind_ok h
      exact hafter (by cases st₁.current <;> rfl) h
    · simp only [buildScopeTreeImpl, if_neg hn] at h
      exact hafter (by cases st.current <;> rfl) h

theorem buildTree_built {root : IR} (h : IR.isScoped root = true) :
    ∃ root' st, buildTree root = .ok (root',st) ∧ Built root root' .empty st :=
  buildScopeTreeImpl_built root .empty (by simp [ScopeTree.empty]) (.inr h)

/-- `BuildTree` on a tree whose root opens a scope: the scopes and the scope ids
are those of the scoped nodes. -/
theorem buildTree_scopesMirror {root : IR} (h : IR.isScoped root = true) :
    ∃ root' st, buildTree root = .ok (root',st) ∧ ScopesMirror root root' st := by
  obtain ⟨root',st,hrun,hbuilt⟩ := buildScopeTreeImpl_built root .empty (by simp [ScopeTree.empty]) (.inr h)
  exact ⟨root',st,hrun,hbuilt.scopesMirror⟩

def blockTree : IR :=
  let plain : IRNode := ⟨5,none,.string "x".toList,.kDataDefault,.kScopeDefault,0,0⟩
  .node { plain with scopeType := .kScopeGlobal }
    (.node { plain with scopeType := .kScopeStatement } (.node plain .nil .nil) .nil) (.node plain .nil .nil)

theorem blockTree_scopesMirror : ∃ root' st, buildTree blockTree = .ok (root',st) ∧ ScopesMirror blockTree root' st :=
  buildTree_scopesMirror rfl

end PolyGlot
