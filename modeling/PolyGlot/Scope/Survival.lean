import PolyGlot.Scope.Collection

set_option autoImplicit false

/-! # When symbol collection survives

A tree and the same tree with scope ids have the same visits, so what a tree
holds decides whether its symbols can be collected.
-/
namespace PolyGlot

open BinaryTree Prog

namespace IR

theorem getChildNum_eq (t : IR) : t.getChildNum = t.values.length := by
  induction t with
  | nil => rfl
  | node n l r ihl ihr =>
    simp only [getChildNum, values, List.length_cons, List.length_append]
    omega

variable {t : IR} {type forbid : DataType}

@[simp] theorem dropScopeIds_eq_nil : t.dropScopeIds = .nil ↔ t = .nil := map_eq_nil

@[simp] theorem values_dropScopeIds_length : t.dropScopeIds.values.length = t.values.length := by
  rw [dropScopeIds, values_map, List.length_map]

@[simp] theorem getChildNum_dropScopeIds : t.dropScopeIds.getChildNum = t.getChildNum := by
  rw [getChildNum_eq, getChildNum_eq, values_dropScopeIds_length]

@[simp] theorem dataType?_dropScopeIds : t.dropScopeIds.dataType? = t.dataType? := by cases t <;> rfl

@[simp] theorem getString_dropScopeIds : t.dropScopeIds.getString = t.getString := by cases t <;> rfl

@[simp] theorem render_dropScopeIds : t.dropScopeIds.render = t.render := by
  have himpl : t.dropScopeIds.toStringImpl = t.toStringImpl := by
    induction t with
    | nil => rfl
    | node n l r ihl ihr =>
      rw [dropScopeIds_node, toStringImpl, toStringImpl, ihl, ihr]
      simp only [dropScopeIds_eq_nil]
      rfl
  rw [render, himpl, render]

@[simp] theorem searchAll_dropScopeIds : t.dropScopeIds.searchAllByDataType type forbid =
    (t.searchAllByDataType type forbid).map dropScopeIds := outermost_map _ t

@[simp] theorem search_dropScopeIds : t.dropScopeIds.searchByDataType type forbid =
    (t.searchByDataType type forbid).dropScopeIds := by
  rw [searchByDataType_eq, searchByDataType_eq]
  exact firstOutermost_map _ t

@[simp] theorem findDefineType_dropScopeIds : t.dropScopeIds.findDefineType = t.findDefineType := by
  induction t with
  | nil => rfl
  | node n l r ihl ihr =>
    rw [dropScopeIds_node, findDefineType, findDefineType, ihl, ihr]

@[simp] theorem classBody_dropScopeIds : t.dropScopeIds.classBody = t.classBody.dropScopeIds := search_dropScopeIds

@[simp] theorem functionBody_dropScopeIds : t.dropScopeIds.functionBody = t.functionBody.dropScopeIds :=
  search_dropScopeIds

@[simp] theorem functionText_dropScopeIds : t.dropScopeIds.functionText = t.functionText := by
  rw [functionText, functionName, search_dropScopeIds, render_dropScopeIds, functionText, functionName]

end IR

def Visit.dropScopeIds (v : Visit) : Visit := ⟨v.kind,v.cur.dropScopeIds⟩

section
variable {cfg : Configuration} {known : List Str} {v : Visit} {vs : List Visit} {t : IR}

theorem Visit.names_dropScopeIds : v.dropScopeIds.names known = v.names known := by
  simp only [Visit.names, Visit.dropScopeIds, IR.classText, IR.className, IR.functionText, IR.functionName, IR.returnType,
    IR.returnTypeText, IR.search_dropScopeIds, IR.getString_dropScopeIds, IR.render_dropScopeIds, ne_eq,
    IR.dropScopeIds_eq_nil]
  congr

theorem Visit.survives_dropScopeIds : v.dropScopeIds.Survives cfg known ↔ v.Survives cfg known := by
  simp only [Visit.Survives, Visit.dropScopeIds, IR.classBody, IR.className, IR.functionText, IR.functionName,
    IR.functionArguments, IR.firstName, IR.typeNode, IR.typeText, IR.search_dropScopeIds, IR.searchAll_dropScopeIds,
    IR.getString_dropScopeIds, IR.render_dropScopeIds, IR.dataType?_dropScopeIds, ne_eq, IR.dropScopeIds_eq_nil,
    List.forall_mem_map]

theorem visitsSurvive_dropScopeIds : VisitsSurvive cfg known (vs.map Visit.dropScopeIds) ↔ VisitsSurvive cfg known vs := by
  induction vs generalizing known with
  | nil => exact Iff.rfl
  | cons v vs ih => rw [List.map_cons, visitsSurvive_cons, visitsSurvive_cons, Visit.survives_dropScopeIds, Visit.names_dropScopeIds, ih]

theorem visitsRec_dropScopeIds (depth : ℕ) (t : IR) :
    visitsRec depth t.dropScopeIds = (visitsRec depth t).map Visit.dropScopeIds := by
  induction depth generalizing t with
  | zero => rfl
  | succ depth ihd =>
    simp only [visitsRec]
    induction t with
    | nil => rfl
    | node n l r ihl ihr =>
      have hdrop := IR.dropScopeIds_node n l r
      have hkind := IR.findDefineType_dropScopeIds (t := .node n l r)
      rw [hdrop] at hkind ⊢
      by_cases hn : isDefinition n = true
      · have hn' : isDefinition { n with scopeId := 0 } = true := hn
        by_cases hclass : IR.findDefineType (.node n l r) = .kClassDefinition
        · rw [visitsFrom_class hn hclass, visitsFrom_class hn' (hkind.trans hclass), ← hdrop, IR.classBody_dropScopeIds,
            ihd, List.map_append]
          rfl
        · by_cases hfunction : IR.findDefineType (.node n l r) = .kFunctionDefinition
          · rw [visitsFrom_function hn hfunction, visitsFrom_function hn' (hkind.trans hfunction), ← hdrop,
              IR.functionText_dropScopeIds, IR.functionBody_dropScopeIds, ihd, List.map_cons,
              apply_ite (List.map Visit.dropScopeIds)]
            rfl
          · rw [visitsFrom_variable hn hclass hfunction, visitsFrom_variable hn' (hkind ▸ hclass) (hkind ▸ hfunction),
              hkind, ← hdrop]
            rfl
      · have hn' : ¬ isDefinition { n with scopeId := 0 } = true := hn
        rw [visitsFrom_other hn, visitsFrom_other hn', ihl, ihr, List.map_append]

theorem visits_dropScopeIds (t : IR) : visits t.dropScopeIds = (visits t).map Visit.dropScopeIds := by
  rw [visits, IR.getChildNum_dropScopeIds, visitsRec_dropScopeIds, visits]

/-- The scope ids of a tree do not count. -/
theorem visitsSurvive_visits {t' : IR} (h : t'.dropScopeIds = t.dropScopeIds) :
    VisitsSurvive cfg known (visits t') ↔ VisitsSurvive cfg known (visits t) := by
  rw [← visitsSurvive_dropScopeIds, ← visits_dropScopeIds, h, visits_dropScopeIds, visitsSurvive_dropScopeIds]

end

theorem FollowsParents.mem {st : ScopeTree} {id : ScopeID} {ids : List ScopeID} (h : FollowsParents st (some id) ids) :
    id ∈ st.scopes := by
  cases h with
  | parent hs _ => exact Std.TreeMap.mem_iff_isSome_getElem?.mpr (Option.isSome_of_eq_some hs)

/-- Every node of the tree is in a scope. -/
theorem ScopesMirror.placed {root root' : IR} {scopes : ScopeTree} (h : ScopesMirror root root' scopes)
    (types : TypeSystem) : Placed ⟨types,scopes⟩ root' := by
  intro n hn
  obtain ⟨q,hq⟩ := mem_values.mp hn
  cases hsub : root'.subtreeAt q with
  | nil => simp [hsub, root?] at hq
  | node m l r =>
    rw [hsub] at hq
    cases hq
    have hroot : root.subtreeAt q ≠ .nil := by
      intro hnil
      have hdrop := congrArg (fun t => BinaryTree.subtreeAt t q) h.same
      simp only [IR.dropScopeIds, subtreeAt_map, hsub, hnil, map] at hdrop
      cases hdrop
    have hid : IR.scopeIdAt root' q = n.scopeId := by
      unfold IR.scopeIdAt
      rw [hsub]
    rw [← hid]
    exact (h.parents q hroot).mem

/-- Before the collection no symbol is recorded. -/
theorem ScopesMirror.symbolTable_eq {root root' : IR} {scopes : ScopeTree} (h : ScopesMirror root root' scopes)
    {id : ScopeID} {s : Scope} (hget : scopes.getScopeById id = some s) : s.symbolTable = ∅ := by
  obtain ⟨q,hq,rfl⟩ := h.noOther id s hget
  cases hsub : root.subtreeAt q with
  | nil => simp [hsub] at hq
  | node n l r =>
    rw [hsub] at hq
    obtain ⟨s',hs',_,_,htable⟩ := h.opened q n l r hsub (IR.isScoped_iff.mp hq)
    rw [hget] at hs'
    cases hs'
    exact htable

theorem ScopesMirror.entries_eq {root root' : IR} {scopes : ScopeTree} (h : ScopesMirror root root' scopes) :
    scopes.entries = [] := by
  unfold ScopeTree.entries VectorMap.bag
  rw [List.flatMap_eq_nil_iff]
  rintro ⟨id,s⟩ hs
  have hnone : s.symbolTable.names = [] := by
    rw [h.symbolTable_eq (Std.TreeMap.mem_toList_iff_getElem?_eq_some.mp hs)]
    rfl
  simp only [hnone, List.map_nil]

section
variable {cfg : Configuration} {before : TypeSystem} {root root' : IR} {scopes : ScopeTree}

theorem ScopesMirror.getChildNum_eq (h : ScopesMirror root root' scopes) : root'.getChildNum = root.getChildNum := by
  rw [← IR.getChildNum_dropScopeIds, h.same, IR.getChildNum_dropScopeIds]

/-- What `BuildSymbolTables` does to a tree that is not too large. -/
theorem buildSymbolTables_decides (h : ScopesMirror root root' scopes) (hroot : IR.isScoped root = true)
    (hsmall : root.getChildNum ≤ 250) :
    Decides (buildSymbolTables cfg root') ⟨TypeSystem.construct cfg before,scopes⟩
      (VisitsSurvive cfg (TypeSystem.construct cfg before).names (visits root'))
      fun _ => Collected (TypeSystem.construct cfg before).names (visits root')
        ⟨TypeSystem.construct cfg before,scopes⟩ := by
  have hnum := h.getChildNum_eq
  have hnil : root' ≠ .nil := by
    rintro rfl
    cases root with
    | nil => simp at hroot
    | node n l r => simp [IR.getChildNum] at hnum
  exact createSymbolTableRec_decides (IR.getChildNum_eq root').ge hnil le_rfl (fun _ => hnum.trans_le hsmall)
    (fun _ => Iff.rfl) (h.placed _)

theorem buildScopeTreeWithSymbolTable_eq (h : buildTree root = .ok (root',scopes)) :
    buildScopeTreeWithSymbolTable cfg before root =
      (buildSymbolTables cfg root' ⟨TypeSystem.construct cfg before,scopes⟩).map fun p => (root',p.2) := by
  unfold buildScopeTreeWithSymbolTable
  rw [h]
  simp only [bind, Except.bind]
  cases buildSymbolTables cfg root' ⟨TypeSystem.construct cfg before,scopes⟩ <;> rfl

/-- The symbols of a tree can be collected when the tree is too large for it, or
when every definition that is visited finds what it needs. -/
theorem buildScopeTreeWithSymbolTable_ok_iff (hroot : IR.isScoped root = true) :
    (∃ r, buildScopeTreeWithSymbolTable cfg before root = .ok r) ↔
      root.getChildNum > 250 ∨ VisitsSurvive cfg (TypeSystem.construct cfg before).names (visits root) := by
  obtain ⟨root',scopes,hbuild,hbuilt⟩ := buildTree_built hroot
  have hmirror := hbuilt.scopesMirror
  rw [buildScopeTreeWithSymbolTable_eq hbuild]
  have hmap : (∃ r, (buildSymbolTables cfg root' ⟨TypeSystem.construct cfg before,scopes⟩).map
      (fun p => (root',p.2)) = .ok r) ↔
      ∃ r, buildSymbolTables cfg root' ⟨TypeSystem.construct cfg before,scopes⟩ = .ok r := by
    cases buildSymbolTables cfg root' ⟨TypeSystem.construct cfg before,scopes⟩ with
    | error e => simp [Except.map]
    | ok p => simp [Except.map]
  rw [hmap]
  by_cases hsmall : root.getChildNum ≤ 250
  · rw [(buildSymbolTables_decides hmirror hroot hsmall).isOk_iff, visitsSurvive_visits hmirror.same]
    exact ⟨.inr,fun h => h.resolve_left (not_lt.mpr hsmall)⟩
  · have hlarge : root'.getChildNum > 250 := hmirror.getChildNum_eq ▸ not_le.mp hsmall
    have hskip : buildSymbolTables cfg root' ⟨TypeSystem.construct cfg before,scopes⟩ =
        .ok ((),⟨TypeSystem.construct cfg before,scopes⟩) := by
      unfold buildSymbolTables
      obtain ⟨fuel,hfuel⟩ := Nat.exists_eq_succ_of_ne_zero (Nat.ne_of_gt (Nat.lt_of_le_of_lt (Nat.zero_le _) hlarge))
      rw [hfuel, createSymbolTableRec, if_pos ⟨rfl,.inl hlarge⟩]
      rfl
    exact iff_of_true ⟨_,hskip⟩ (.inl (not_le.mp hsmall))

end

def plainNode (dataType : DataType) (l r : IR) : IR :=
  .node ⟨5,none,.monostate,dataType,.kScopeDefault,0,0⟩ l r

def textLeaf (dataType : DataType) (s : Str) : IR := .node ⟨5,none,.string s,dataType,.kScopeDefault,0,0⟩ .nil .nil

def programOf (u : IR) : IR := .node ⟨5,none,.monostate,.kDataDefault,.kScopeGlobal,0,0⟩ u .nil

def functionWith (type : IR) : IR :=
  programOf (plainNode .kFunctionDefinition (textLeaf .kFunctionName "f".toList)
    (plainNode .kFunctionArgument (textLeaf .kVariableName "x".toList) type))

theorem typedParameter_survives : (functionWith (textLeaf .kVariableType "INT".toList)).getChildNum > 250 ∨
    VisitsSurvive (intConfig true) (TypeSystem.construct (intConfig true) .initial).names
      (visits (functionWith (textLeaf .kVariableType "INT".toList))) := by
  apply (buildScopeTreeWithSymbolTable_ok_iff rfl).mp
  have hok : (buildScopeTreeWithSymbolTable (intConfig true) .initial
      (functionWith (textLeaf .kVariableType "INT".toList))).isOk = true := by decide +kernel
  cases hrun : buildScopeTreeWithSymbolTable (intConfig true) .initial
      (functionWith (textLeaf .kVariableType "INT".toList)) with
  | ok r => exact ⟨r,rfl⟩
  | error e => rw [hrun] at hok; cases hok

/-- A parameter without a type is dereferenced. -/
theorem untypedParameter_crashes : IR.isScoped (functionWith .nil) = true ∧ (intConfig true).isWeakType = true ∧
    (∀ arg ∈ occurrences (ofType .kFunctionArgument) (functionWith .nil), IR.firstName arg ≠ .nil) ∧
    occurrences (ofType .kClassDefinition) (functionWith .nil) = [] ∧
    buildScopeTreeWithSymbolTable (intConfig true) .initial (functionWith .nil) = .error .nullDeref :=
  ⟨rfl,rfl,by decide,rfl,rfl⟩

end PolyGlot
