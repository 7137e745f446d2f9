import PolyGlot.Types.TypeSystem
import PolyGlot.Support.TreePath

set_option autoImplicit false

/-! # Scopes

The scopes of a `ScopeTree` by id. A scope gets its parent when it is entered
and keeps it, so a parent has the smaller id.
-/
namespace PolyGlot

open BinaryTree

structure Definition where
  name : Str
  type : TypeID
  statementId : StatementID
  deriving DecidableEq

abbrev SymbolTable := VectorMap TypeID Definition

structure Scope where
  scopeId : ScopeID
  parent : Option ScopeID
  scopeType : ScopeType
  children : Finset ScopeID
  symbolTable : SymbolTable

/-- A symbol table made by `AddDefinition`: no vector is empty, and a definition
stands under its type. -/
structure SymbolTable.Kept (m : SymbolTable) : Prop where
  filled : m.Filled
  keyed : ∀ t, ∀ d ∈ m.vals t, d.type = t

def Scope.addDefinition (d : Definition) (s : Scope) : Scope :=
  if d.type = SpecialType.kNotExist then s else { s with symbolTable := s.symbolTable.push d.type d }

def Scope.addChild (id : ScopeID) (s : Scope) : Scope := { s with children := insert id s.children }

/-- What the scopes of a tree keep: ids are given out from one on, a parent has
the smaller id, and a scope is in the children of its parent and of no other. -/
structure ScopesOk (scopes : Std.TreeMap ScopeID Scope) (counter : ℕ) : Prop where
  ids : ∀ id, id ∈ scopes ↔ 1 ≤ id ∧ id ≤ counter
  scopeId : ∀ (id : ScopeID) (s : Scope), scopes[id]? = some s → s.scopeId = id
  parent : ∀ (id : ScopeID) (s : Scope), scopes[id]? = some s → ∀ p, s.parent = some p → p ∈ scopes ∧ p < id
  children : ∀ (id : ScopeID) (s : Scope), scopes[id]? = some s → ∀ c, c ∈ s.children ↔
    ∃ sc, scopes[c]? = some sc ∧ sc.parent = some id
  tables : ∀ (id : ScopeID) (s : Scope), scopes[id]? = some s → s.symbolTable.Kept

structure ScopeTree where
  scopes : Std.TreeMap ScopeID Scope
  counter : ℕ
  root : Option ScopeID
  current : Option ScopeID
  ok : ScopesOk scopes counter
  current_mem : ∀ id, current = some id → id ∈ scopes

section Invariant
variable {scopes : Std.TreeMap ScopeID Scope} {counter : ℕ}

theorem ScopesOk.empty : ScopesOk ∅ 0 := by
  refine ⟨fun id => ?_,by simp,by simp,by simp,by simp⟩
  simp only [Std.TreeMap.not_mem_emptyc, false_iff]
  exact fun h => absurd (h.1.trans h.2) (by decide)

theorem getElem?_modify_ite {id k : ScopeID} {f : Scope → Scope} :
    (scopes.modify k f)[id]? = if k = id then scopes[id]?.map f else scopes[id]? := by
  rw [Std.TreeMap.getElem?_modify]
  by_cases h : k = id
  · rw [if_pos h, if_pos (Std.LawfulEqCmp.compare_eq_iff_eq.mpr h), h]
  · rw [if_neg h, if_neg (mt Std.LawfulEqCmp.compare_eq_iff_eq.mp h)]

theorem getElem?_addDefinition {id : ScopeID} {sc : Scope} (hsc : scopes[id]? = some sc) (d : Definition) (i : ScopeID) :
    (scopes.modify id (Scope.addDefinition d))[i]? = if id = i then some (sc.addDefinition d) else scopes[i]? := by
  rw [getElem?_modify_ite]
  split
  · rename_i h
    rw [← h, hsc]
    rfl
  · rfl

theorem Scope.mem_addDefinition {sc : Scope} {d d' : Definition} {t : TypeID} :
    d' ∈ (sc.addDefinition d).symbolTable.vals t ↔
      d' ∈ sc.symbolTable.vals t ∨ d.type ≠ SpecialType.kNotExist ∧ d.type = t ∧ d' = d := by
  unfold Scope.addDefinition
  by_cases hnone : d.type = SpecialType.kNotExist
  · simp [hnone]
  · rw [if_neg hnone, VectorMap.mem_vals_push]
    simp [hnone]

theorem ScopesOk.addDefinition (h : ScopesOk scopes counter) (id : ScopeID) (d : Definition) :
    ScopesOk (scopes.modify id (Scope.addDefinition d)) counter := by
  have hsame : ∀ s : Scope, (s.addDefinition d).parent = s.parent ∧ (s.addDefinition d).children = s.children ∧
      (s.addDefinition d).scopeId = s.scopeId := by
    intro s
    unfold Scope.addDefinition
    split <;> exact ⟨rfl,rfl,rfl⟩
  have hback : ∀ (i : ScopeID) (s : Scope), (scopes.modify id (Scope.addDefinition d))[i]? = some s →
      ∃ s₀, scopes[i]? = some s₀ ∧ s.parent = s₀.parent ∧ s.children = s₀.children ∧ s.scopeId = s₀.scopeId ∧
        (s = s₀ ∨ s = s₀.addDefinition d) := by
    intro i s hs
    rw [getElem?_modify_ite] at hs
    split at hs
    · obtain ⟨s₀,hs₀,rfl⟩ := Option.map_eq_some_iff.mp hs
      exact ⟨s₀,hs₀,(hsame s₀).1,(hsame s₀).2.1,(hsame s₀).2.2,.inr rfl⟩
    · exact ⟨s,hs,rfl,rfl,rfl,.inl rfl⟩
  refine ⟨fun i => ?_,?_,?_,?_,?_⟩
  · rw [Std.TreeMap.mem_modify]
    exact h.ids i
  · intro i s hs
    obtain ⟨s₀,hs₀,_,_,hid,_⟩ := hback i s hs
    exact hid.trans (h.scopeId i s₀ hs₀)
  · intro i s hs p hp
    obtain ⟨s₀,hs₀,hparent,_⟩ := hback i s hs
    rw [Std.TreeMap.mem_modify]
    exact h.parent i s₀ hs₀ p (hparent ▸ hp)
  · intro i s hs c
    obtain ⟨s₀,hs₀,_,hchildren,_⟩ := hback i s hs
    rw [hchildren, h.children i s₀ hs₀ c]
    constructor
    · rintro ⟨sc,hsc,hparent⟩
      rw [getElem?_modify_ite, hsc]
      split
      · exact ⟨_,rfl,(hsame sc).1.trans hparent⟩
      · exact ⟨_,rfl,hparent⟩
    · rintro ⟨sc,hsc,hparent⟩
      obtain ⟨sc₀,hsc₀,hp,_⟩ := hback c sc hsc
      exact ⟨sc₀,hsc₀,hp ▸ hparent⟩
  · intro i s hs
    obtain ⟨s₀,hs₀,_,_,_,hcase⟩ := hback i s hs
    have hkept := h.tables i s₀ hs₀
    rcases hcase with rfl | rfl
    · exact hkept
    · unfold Scope.addDefinition
      split
      · exact hkept
      · refine ⟨hkept.filled.push,fun t d' hd' => ?_⟩
        rcases VectorMap.mem_vals_push.mp hd' with hd' | ⟨ht,rfl⟩
        · exact hkept.keyed t d' hd'
        · exact ht

def withScope (scopes : Std.TreeMap ScopeID Scope) (id : ScopeID) (scopeType : ScopeType) :
    Option ScopeID → Std.TreeMap ScopeID Scope
  | none => scopes.insert id ⟨id,none,scopeType,∅,∅⟩
  | some p => (scopes.modify p (Scope.addChild id)).insert id ⟨id,some p,scopeType,∅,∅⟩

theorem getElem?_withScope {id i : ScopeID} {scopeType : ScopeType} {parent : Option ScopeID} :
    (withScope scopes id scopeType parent)[i]? = if id = i then some ⟨id,parent,scopeType,∅,∅⟩
      else if parent = some i then scopes[i]?.map (Scope.addChild id) else scopes[i]? := by
  cases parent with
  | none => simp only [withScope, VectorMap.getElem?_insert_ite, reduceCtorEq, if_false]
  | some p => simp only [withScope, VectorMap.getElem?_insert_ite, getElem?_modify_ite, Option.some.injEq]

/-- A scope that is there is the new one, or an old one whose children may have
become more. -/
theorem withScope_back {id i : ScopeID} {scopeType : ScopeType} {parent : Option ScopeID} {s : Scope}
    (hs : (withScope scopes id scopeType parent)[i]? = some s) :
    (i = id ∧ s = ⟨id,parent,scopeType,∅,∅⟩) ∨ ∃ s₀, scopes[i]? = some s₀ ∧ s.parent = s₀.parent ∧
      s.scopeId = s₀.scopeId ∧ s.symbolTable = s₀.symbolTable ∧
      s.children = if parent = some i then insert id s₀.children else s₀.children := by
  rw [getElem?_withScope] at hs
  split at hs
  · rename_i heq
    cases hs
    exact .inl ⟨heq.symm,rfl⟩
  · split at hs
    · rename_i hp
      obtain ⟨s₀,hs₀,rfl⟩ := Option.map_eq_some_iff.mp hs
      exact .inr ⟨s₀,hs₀,rfl,rfl,rfl,by rw [if_pos hp]; rfl⟩
    · rename_i hp
      exact .inr ⟨s,hs,rfl,rfl,rfl,by rw [if_neg hp]⟩

theorem mem_withScope {id i : ScopeID} {scopeType : ScopeType} {parent : Option ScopeID} :
    i ∈ withScope scopes id scopeType parent ↔ i = id ∨ i ∈ scopes := by
  rw [Std.TreeMap.mem_iff_isSome_getElem?, Std.TreeMap.mem_iff_isSome_getElem?, getElem?_withScope]
  by_cases heq : id = i
  · simp [heq]
  · rw [if_neg heq]
    have hne : i ≠ id := fun h => heq h.symm
    split <;> simp [hne]

/-- The scopes with a given parent, where the id was free. -/
theorem exists_child_withScope {id i c : ScopeID} {scopeType : ScopeType} {parent : Option ScopeID}
    (hnew : scopes[id]? = none) :
    (∃ sc, (withScope scopes id scopeType parent)[c]? = some sc ∧ sc.parent = some i) ↔
      (c = id ∧ parent = some i) ∨ ∃ sc, scopes[c]? = some sc ∧ sc.parent = some i := by
  constructor
  · rintro ⟨sc,hsc,hp⟩
    rcases withScope_back hsc with ⟨rfl,rfl⟩ | ⟨sc₀,hsc₀,hp₀,_⟩
    · exact .inl ⟨rfl,hp⟩
    · exact .inr ⟨sc₀,hsc₀,hp₀ ▸ hp⟩
  · rintro (⟨rfl,hp⟩ | ⟨sc₀,hsc₀,hp⟩)
    · exact ⟨⟨c,parent,scopeType,∅,∅⟩,by rw [getElem?_withScope, if_pos rfl],hp⟩
    · have hne : id ≠ c := by
        rintro rfl
        rw [hnew] at hsc₀
        cases hsc₀
      rw [getElem?_withScope, if_neg hne, hsc₀]
      split
      · exact ⟨_,rfl,hp⟩
      · exact ⟨_,rfl,hp⟩

theorem ScopesOk.lt (h : ScopesOk scopes counter) {i : ScopeID} (hi : i ∈ scopes) : i < counter + 1 :=
  Nat.lt_succ_of_le ((h.ids i).mp hi).2

theorem ScopesOk.next_free (h : ScopesOk scopes counter) : scopes[counter + 1]? = none := by
  by_contra hne
  have hmem := Std.TreeMap.mem_iff_isSome_getElem?.mpr (Option.isSome_iff_ne_none.mpr hne)
  exact absurd (h.lt hmem) (lt_irrefl _)

theorem ScopesOk.withScope (h : ScopesOk scopes counter) (scopeType : ScopeType) {parent : Option ScopeID}
    (hparent : ∀ p, parent = some p → p ∈ scopes) :
    ScopesOk (withScope scopes (counter + 1) scopeType parent) (counter + 1) := by
  refine ⟨fun i => ?_,?_,?_,?_,?_⟩
  · rw [mem_withScope, h.ids]
    have hrange : ∀ i c : ℕ, i = c + 1 ∨ 1 ≤ i ∧ i ≤ c ↔ 1 ≤ i ∧ i ≤ c + 1 := by omega
    exact hrange i counter
  · intro i s hs
    rcases withScope_back hs with ⟨rfl,rfl⟩ | ⟨s₀,hs₀,_,hid,_⟩
    · rfl
    · exact hid.trans (h.scopeId i s₀ hs₀)
  · intro i s hs p hp
    rw [mem_withScope]
    rcases withScope_back hs with ⟨rfl,rfl⟩ | ⟨s₀,hs₀,hparent₀,_⟩
    · exact ⟨.inr (hparent p hp),h.lt (hparent p hp)⟩
    · obtain ⟨hmem,hless⟩ := h.parent i s₀ hs₀ p (hparent₀ ▸ hp)
      exact ⟨.inr hmem,hless⟩
  · intro i s hs c
    rw [exists_child_withScope h.next_free]
    rcases withScope_back hs with ⟨rfl,rfl⟩ | ⟨s₀,hs₀,_,_,_,hchildren⟩
    · -- nothing has the new scope as its parent
      simp only [Finset.notMem_empty, false_iff]
      rintro (⟨_,hp⟩ | ⟨sc,hsc,hp⟩)
      · exact absurd (h.lt (hparent _ hp)) (lt_irrefl _)
      · exact absurd (h.lt (h.parent c sc hsc _ hp).1) (lt_irrefl _)
    · rw [hchildren, ← h.children i s₀ hs₀ c]
      split
      · rename_i hp
        simp [hp]
      · rename_i hp
        simp [hp]
  · intro i s hs
    rcases withScope_back hs with ⟨rfl,rfl⟩ | ⟨s₀,hs₀,_,_,htable,_⟩
    · exact ⟨VectorMap.filled_empty,fun t d hd => by simp at hd⟩
    · rw [htable]
      exact h.tables i s₀ hs₀

end Invariant

namespace ScopeTree

def empty : ScopeTree where
  scopes := ∅
  counter := 0
  root := none
  current := none
  ok := .empty
  current_mem := by simp

def getScopeById (st : ScopeTree) (id : ScopeID) : Option Scope := st.scopes[id]?

def genScope (st : ScopeTree) (scopeType : ScopeType) (parent : Option ScopeID)
    (h : ∀ p, parent = some p → p ∈ st.scopes) : ScopeTree where
  scopes := withScope st.scopes (st.counter + 1) scopeType parent
  counter := st.counter + 1
  root := st.root <|> some (st.counter + 1)
  current := some (st.counter + 1)
  ok := st.ok.withScope scopeType h
  current_mem := by
    intro id hid
    cases hid
    rw [Std.TreeMap.mem_iff_isSome_getElem?, getElem?_withScope, if_pos rfl]
    rfl

/-- Once there is a root, the scope that is current becomes the parent: it is
dereferenced, and null after the root scope was left. -/
def enterScope (st : ScopeTree) (scopeType : ScopeType) : Except Fault ScopeTree :=
  match st.root, h : st.current with
  | none, _ => .ok (st.genScope scopeType none (by simp))
  | some _, none => .error .nullDeref
  | some _, some cur => .ok (st.genScope scopeType (some cur) fun p hp => by
      cases hp
      exact st.current_mem cur h)

def exitScope (st : ScopeTree) : Except Fault ScopeTree :=
  match h : st.current.bind (st.scopes[·]?) with
  | none => .error .nullDeref
  | some s => .ok { st with
      current := s.parent
      current_mem := by
        intro p hp
        obtain ⟨cur,_,hs⟩ := Option.bind_eq_some_iff.mp h
        exact (st.ok.parent cur s hs p hp).1 }

def addDefinition (st : ScopeTree) (id : ScopeID) (d : Definition) : Except Fault ScopeTree :=
  match st.getScopeById id with
  | none => .error .nullDeref
  | some _ => .ok { st with
      scopes := st.scopes.modify id (Scope.addDefinition d)
      ok := st.ok.addDefinition id d
      current_mem := fun i hi => Std.TreeMap.mem_modify.mpr (st.current_mem i hi) }

def enclosingRec (st : ScopeTree) : ℕ → Option ScopeID → List (ScopeID × Scope)
  | 0, _ => []
  | _ + 1, none => []
  | fuel + 1, some id =>
    match st.getScopeById id with
    | none => []
    | some s => (id, s) :: enclosingRec st fuel s.parent

def enclosing (st : ScopeTree) (id : ScopeID) : List (ScopeID × Scope) := st.enclosingRec (id + 1) (some id)

theorem enclosingRec_enough (st : ScopeTree) {fuel fuel' : ℕ} {p : Option ScopeID} (h : ∀ id, p = some id → id < fuel)
    (h' : ∀ id, p = some id → id < fuel') : st.enclosingRec fuel p = st.enclosingRec fuel' p := by
  induction fuel generalizing fuel' p with
  | zero =>
    cases p with
    | none => cases fuel' <;> rfl
    | some id => exact absurd (h id rfl) (Nat.not_lt_zero _)
  | succ fuel ih =>
    cases p with
    | none => cases fuel' <;> rfl
    | some id =>
      have hid := h id rfl
      have hid' := h' id rfl
      cases fuel' with
      | zero => exact absurd hid' (Nat.not_lt_zero _)
      | succ fuel' =>
        unfold enclosingRec
        cases hs : st.getScopeById id with
        | none => rfl
        | some s =>
          simp only [List.cons.injEq, true_and]
          apply ih
          · intro p hp
            exact lt_of_lt_of_le ((st.ok.parent id s hs p hp).2) (Nat.le_of_lt_succ hid)
          · intro p hp
            exact lt_of_lt_of_le ((st.ok.parent id s hs p hp).2) (Nat.le_of_lt_succ hid')

/-- One step of the loop over the scopes. -/
theorem enclosing_eq (st : ScopeTree) (id : ScopeID) : st.enclosing id = match st.getScopeById id with
    | none => []
    | some s => (id, s) :: match s.parent with
      | none => []
      | some p => st.enclosing p := by
  rw [enclosing, enclosingRec]
  cases hs : st.getScopeById id with
  | none => rfl
  | some s =>
    simp only [List.cons.injEq, true_and]
    cases hp : s.parent with
    | none => cases id <;> rfl
    | some p =>
      apply enclosingRec_enough
      · intro i hi
        cases hi
        exact (st.ok.parent id s hs p hp).2
      · intro i hi
        cases hi
        exact Nat.lt_succ_self p

theorem mem_enclosing {st : ScopeTree} {id i : ScopeID} {s : Scope} (h : (i, s) ∈ st.enclosing id) :
    st.getScopeById i = some s := by
  induction id using Nat.strong_induction_on with
  | _ id ih =>
    rw [enclosing_eq] at h
    cases hs : st.getScopeById id with
    | none => simp [hs] at h
    | some s₀ =>
      simp only [hs, List.mem_cons, Prod.mk.injEq] at h
      rcases h with ⟨rfl,rfl⟩ | h
      · exact hs
      · cases hp : s₀.parent with
        | none => simp [hp] at h
        | some p =>
          simp only [hp] at h
          exact ih p (st.ok.parent id s₀ hs p hp).2 h

end ScopeTree

/-- `BuildScopeTreeImpl`: enter the scope that a node opens, give the node the id
of the scope that is then current, and leave the scope after the children. -/
def buildScopeTreeImpl : IR → ScopeTree → Except Fault (IR × ScopeTree)
  | .nil, st => .ok (.nil, st)
  | .node n l r, st => do
    let st ← if n.scopeType ≠ .kScopeDefault then st.enterScope n.scopeType else .ok st
    let n := match st.current with
      | none => n
      | some id => { n with scopeId := id }
    let (l, st) ← buildScopeTreeImpl l st
    let (r, st) ← buildScopeTreeImpl r st
    let st ← if n.scopeType ≠ .kScopeDefault then st.exitScope else .ok st
    return (.node n l r, st)

def buildTree (root : IR) : Except Fault (IR × ScopeTree) := buildScopeTreeImpl root .empty

end PolyGlot
