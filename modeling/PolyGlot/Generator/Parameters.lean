import PolyGlot.Antlr.Numbering
import PolyGlot.Generator.Collect
import PolyGlot.Scope.Recorded

set_option autoImplicit false

/-! # Parameters in the body of their function

A parameter is recorded under the id of its function, which is larger than all
ids in the body. It is collected there only where some other definition of the
same name and type is.
-/
namespace PolyGlot

open BinaryTree

namespace IR

theorem ids_dropScopeIds (t : IR) : t.dropScopeIds.ids = t.ids := by
  unfold ids dropScopeIds
  rw [values_map, List.map_map]
  rfl

theorem falling_dropScopeIds {t : IR} : t.dropScopeIds.Falling ↔ t.Falling := by
  induction t with
  | nil => exact Iff.rfl
  | node n l r ihl ihr =>
    rw [dropScopeIds_node, Falling, Falling, ids_dropScopeIds, ids_dropScopeIds, ihl, ihr]

/-- What a search finds elsewhere than at the root has smaller ids. -/
theorem Falling.search_lt {n : IRNode} {l r : IR} (h : Falling (.node n l r)) {type forbid : DataType}
    (hn : n.dataType ≠ type) {m : IRNode} (hm : m ∈ (searchByDataType type forbid (.node n l r)).values) :
    m.statementId < n.statementId := by
  have hfound : searchByDataType type forbid (.node n l r) ≠ .nil := by
    intro hnil
    rw [hnil] at hm
    simp [values] at hm
  obtain ⟨q,a,x,y,hq,htype,heq⟩ := searchByDataType_place hfound
  obtain ⟨p,hp⟩ := mem_values.mp hm
  rw [heq, ← hq, ← subtreeAt_append] at hp
  have hne : q ++ p ≠ [] := by
    intro hnil
    obtain ⟨rfl,_⟩ := List.append_eq_nil_iff.mp hnil
    cases hq
    exact hn htype
  exact h.lt (p := []) hne rfl hp

end IR

/-- A visit is to a definition in the tree. -/
theorem visitsFrom_place {t : IR} {inner : IR → List Visit} {v : Visit}
    (hinner : ∀ body, ∀ w ∈ inner body, ∃ p n l r, body.subtreeAt p = w.cur ∧ w.cur = .node n l r ∧ isDefinition n = true)
    (hv : v ∈ visitsFrom inner t) :
    ∃ p n l r, t.subtreeAt p = v.cur ∧ v.cur = .node n l r ∧ isDefinition n = true := by
  induction t with
  | nil => simp [visitsFrom] at hv
  | node n l r ihl ihr =>
    by_cases hn : isDefinition n = true
    · have hbody : ∀ body : DataType, v ∈ inner (IR.searchByDataType body .kDataDefault (.node n l r)) →
          ∃ p m a b, (BinaryTree.node n l r).subtreeAt p = v.cur ∧ v.cur = .node m a b ∧ isDefinition m = true := by
        intro body hv
        obtain ⟨p,m,a,b,hp,hcur,hm⟩ := hinner _ v hv
        have hfound : IR.searchByDataType body .kDataDefault (.node n l r) ≠ .nil := by
          intro hnil
          rw [hnil, subtreeAt_nil, hcur] at hp
          cases hp
        obtain ⟨q,c,x,y,hq,_,heq⟩ := IR.searchByDataType_place hfound
        refine ⟨q ++ p,m,a,b,?_,hcur,hm⟩
        rw [subtreeAt_append, hq, ← heq, hp]
      have hself : v.cur = .node n l r →
          ∃ p m a b, (BinaryTree.node n l r).subtreeAt p = v.cur ∧ v.cur = .node m a b ∧ isDefinition m = true :=
        fun hcur => ⟨[],n,l,r,hcur.symm,hcur,hn⟩
      by_cases hclass : IR.findDefineType (.node n l r) = .kClassDefinition
      · rw [visitsFrom_class hn hclass, List.mem_append, List.mem_singleton] at hv
        rcases hv with hv | rfl
        · exact hbody .kClassBody hv
        · exact hself rfl
      · by_cases hfunction : IR.findDefineType (.node n l r) = .kFunctionDefinition
        · rw [visitsFrom_function hn hfunction, List.mem_cons] at hv
          rcases hv with rfl | hv
          · exact hself rfl
          · by_cases htext : IR.functionText (.node n l r) = []
            · simp [htext] at hv
            · rw [if_neg htext] at hv
              exact hbody .kFunctionBody hv
        · rw [visitsFrom_variable hn hclass hfunction, List.mem_singleton] at hv
          exact hself (hv ▸ rfl)
    · rw [visitsFrom_other hn, List.mem_append] at hv
      rcases hv with hv | hv
      · obtain ⟨p,m,a,b,hp,hm⟩ := ihl hv
        exact ⟨.left :: p,m,a,b,hp,hm⟩
      · obtain ⟨p,m,a,b,hp,hm⟩ := ihr hv
        exact ⟨.right :: p,m,a,b,hp,hm⟩

theorem visitsRec_place {depth : ℕ} {t : IR} {v : Visit} (hv : v ∈ visitsRec depth t) :
    ∃ p n l r, t.subtreeAt p = v.cur ∧ v.cur = .node n l r ∧ isDefinition n = true := by
  induction depth generalizing t v with
  | zero => simp [visitsRec] at hv
  | succ depth ih => exact visitsFrom_place (fun body w hw => ih hw) hv

/-- Another definition of the tree, in a scope around the node and with a smaller
id, has the name and the type. -/
def DefinedElsewhere (cfg : Configuration) (types : TypeSystem) (root : IR) (scopes : ScopeTree) (v : Visit) (n : IRNode)
    (name : Str) (t : TypeID) : Prop :=
  ∃ w ∈ visits root, w ≠ v ∧ ∃ e ∈ w.definitions cfg types, e.1 ∈ (scopes.enclosing n.scopeId).map Prod.fst ∧
    e.2.statementId < n.statementId ∧ e.2.name = name ∧ e.2.type = t

section
variable {uninit : StatementID → ScopeID} {cfg : Configuration} {before : TypeSystem} {tree : ParseTree} {id id' : ℕ}
  {u root : IR} {s : CollectState} {v : Visit} {n : IRNode}

theorem visible_iff {t : TypeID} {d : Definition} (hd : d.type = t) : Visible s.scopes n t d ↔
    (∃ i ∈ (s.scopes.enclosing n.scopeId).map Prod.fst, s.scopes.Holds i d) ∧ d.statementId < n.statementId := by
  subst hd
  constructor
  · rintro ⟨⟨i,sc⟩,hi,hd,hless⟩
    exact ⟨⟨i,List.mem_map_of_mem hi,sc,ScopeTree.mem_enclosing hi,hd⟩,hless⟩
  · rintro ⟨⟨i,hi,sc,hsc,hd⟩,hless⟩
    obtain ⟨⟨i,sc'⟩,hmem,rfl⟩ := List.mem_map.mp hi
    have hsame : sc' = sc := Option.some.inj ((ScopeTree.mem_enclosing hmem).symm.trans hsc)
    exact ⟨(i,sc'),hmem,hsame ▸ hd,hless⟩

/-- A name is collected under a basic type where a definition of the tree gives it. -/
theorem collected_iff (hroot : IR.isScoped u = true) (hsmall : u.getChildNum ≤ 250)
    (hbuild : buildScopeTreeWithSymbolTable cfg before u = .ok (root,s)) {t : TypeID}
    (ht : BasicType (TypeSystem.construct cfg before) t) {x : Str} :
    (∃ k, x ∈ (collectAllVarDefinitionByType s.scopes s.types n k).vals t) ↔
      ∃ w ∈ visits root, ∃ e ∈ w.definitions cfg (TypeSystem.construct cfg before),
        e.1 ∈ (s.scopes.enclosing n.scopeId).map Prod.fst ∧ e.2.statementId < n.statementId ∧ e.2.name = x ∧ e.2.type = t := by
  obtain ⟨hsimple,hholds⟩ := (buildScopeTreeWithSymbolTable_holds hroot hsmall hbuild).2 t ht
  obtain ⟨v,hv⟩ := isBasicType_iff.mp ht.2
  have hptr : s.types.getTypePtrByID t = some v := by
    rw [TypeTables.getTypePtrByID, hsimple, hv]
    rfl
  have hkind : TypeKind.simple ∈ collectedAs v.kind := by
    obtain ⟨_,hcompound,hfunction⟩ := (TypeSystem.construct cfg before).statics_ok.typed t v hv
    cases hk : v.kind with
    | simple => decide
    | pointer => decide
    | compound => exact absurd hk hcompound
    | function => exact absurd hk hfunction
  constructor
  · rintro ⟨k,hk⟩
    obtain ⟨_,d,hd,rfl⟩ := mem_collect.mp hk
    have htype : d.type = t := by
      obtain ⟨⟨i,sc⟩,hi,hmem,_⟩ := hd
      exact (s.scopes.ok.tables i sc (ScopeTree.mem_enclosing hi)).keyed t d hmem
    obtain ⟨⟨i,hi,hd⟩,hless⟩ := (visible_iff htype).mp hd
    obtain ⟨w,hw,he⟩ := (hholds i d htype).mp hd
    exact ⟨w,hw,(i,d),he,hi,hless,rfl,htype⟩
  · rintro ⟨w,hw,⟨i,d⟩,he,hi,hless,rfl,htype⟩
    have hd : s.scopes.Holds i d := (hholds i d htype).mpr ⟨w,hw,he⟩
    exact ⟨.simple,mem_collect.mpr ⟨⟨v,hptr,hkind⟩,d,(visible_iff htype).mpr ⟨⟨i,hi,hd⟩,hless⟩,rfl⟩⟩

/-- The body comes before the function in the order of the ids. -/
theorem body_before (htranslate : translateNode uninit tree id = .ok (some u,id'))
    (hsame : root.dropScopeIds = u.dropScopeIds) (hv : v ∈ visits root) (hn : n ∈ v.cur.functionBody.values) :
    n.statementId < v.cur.statementId := by
  have hfalling : u.Falling := ((translateNode_numbered htranslate).2 u rfl).falling u (List.mem_singleton_self u)
  have hroot : root.Falling := by
    rwa [← IR.falling_dropScopeIds, hsame, IR.falling_dropScopeIds]
  obtain ⟨p,m,l,r,hp,hcur,hm⟩ := visitsRec_place hv
  have hcurFalling : IR.Falling (.node m l r) := hcur ▸ hp ▸ hroot.subtreeAt p
  have hne : m.dataType ≠ .kFunctionBody := by
    intro h
    simp [isDefinition, h] at hm
  rw [hcur] at hn ⊢
  exact hcurFalling.search_lt hne hn

/-- In the body of a function its parameters are collected exactly where other
definitions of their names and types are. -/
theorem parameters_collected_iff (htranslate : translateNode uninit tree id = .ok (some u,id'))
    (hroot : IR.isScoped u = true) (hsmall : u.getChildNum ≤ 250)
    (hbuild : buildScopeTreeWithSymbolTable cfg before u = .ok (root,s)) (hv : v ∈ visits root)
    (hkind : v.kind = .kFunctionDefinition)
    (htypes : ∀ arg ∈ v.cur.functionArguments,
      BasicType (TypeSystem.construct cfg before) (typeIDOf cfg (TypeSystem.construct cfg before) arg.typeNode))
    (hn : n ∈ v.cur.functionBody.values) :
    (∀ arg ∈ v.cur.functionArguments, ∃ k, arg.argumentText ∈ (collectAllVarDefinitionByType s.scopes s.types n k).vals
      (typeIDOf cfg (TypeSystem.construct cfg before) arg.typeNode)) ↔
    ∀ arg ∈ v.cur.functionArguments, DefinedElsewhere cfg (TypeSystem.construct cfg before) root s.scopes v n
      arg.argumentText (typeIDOf cfg (TypeSystem.construct cfg before) arg.typeNode) := by
  have hsame := (buildScopeTreeWithSymbolTable_holds hroot hsmall hbuild).1
  apply forall₂_congr
  intro arg harg
  rw [collected_iff hroot hsmall hbuild (htypes arg harg)]
  constructor
  · rintro ⟨w,hw,e,he,hi,hless,hname,htype⟩
    refine ⟨w,hw,?_,e,he,hi,hless,hname,htype⟩
    rintro rfl
    -- a parameter of the function itself has the id of the function
    have hown : e.2.statementId = w.cur.statementId := by
      rw [Visit.definitions, hkind] at he
      by_cases hbody : w.cur.functionText ≠ [] ∧ w.cur.functionBody ≠ .nil
      · simp only [if_pos hbody, List.mem_map] at he
        obtain ⟨arg',_,rfl⟩ := he
        rfl
      · simp [if_neg hbody] at he
    exact lt_asymm (body_before htranslate hsame hw hn) (hown ▸ hless)
  · rintro ⟨w,hw,_,he⟩
    exact ⟨w,hw,he⟩

end

def leafRule (dataType : DataType) (s : Str) : ParseTree :=
  .rule ⟨2,true,false,false,dataType,.kScopeDefault⟩ [.terminal s]

def parameterProgram : ParseTree :=
  .rule ⟨0,false,false,false,.kDataDefault,.kScopeGlobal⟩ [.rule ⟨1,false,false,false,.kFunctionDefinition,.kScopeDefault⟩
    [leafRule .kFunctionReturnType "INT".toList,leafRule .kFunctionName "f".toList,
     .rule ⟨1,false,false,false,.kFunctionArgument,.kScopeDefault⟩
      [leafRule .kVariableType "INT".toList,leafRule .kVariableName "x".toList],
     .rule ⟨1,false,false,false,.kFunctionBody,.kScopeFunction⟩ [leafRule .kDataDefault "x".toList]]]

def parameterIR : IR := match translateNode id parameterProgram 0 with
  | .ok (some u, _) => u
  | _ => .nil

def parameterRoot : IR := match buildTree parameterIR with
  | .ok (root, _) => root
  | .error _ => .nil

def parameterUse : IRNode := ⟨2,none,.string "x".toList,.kDataDefault,.kScopeDefault,2,5⟩

theorem parameterIR_translated : translateNode id parameterProgram 0 = .ok (some parameterIR,11) := by
  decide +kernel

theorem parameterRoot_built : ∃ s, buildScopeTreeWithSymbolTable (intConfig true) .initial parameterIR = .ok (parameterRoot,s) ∧
    ∀ k, "x".toList ∉ (collectAllVarDefinitionByType s.scopes s.types parameterUse k).vals 10 := by
  have hrun : (buildScopeTreeWithSymbolTable (intConfig true) .initial parameterIR).map (fun r =>
      (r.1,[TypeKind.simple,.compound,.function,.pointer].map fun k =>
        (collectAllVarDefinitionByType r.2.scopes r.2.types parameterUse k).vals 10)) =
      .ok (parameterRoot,[[],[],[],[]]) := by
    decide +kernel
  cases hbuild : buildScopeTreeWithSymbolTable (intConfig true) .initial parameterIR with
  | error f =>
    rw [hbuild] at hrun
    cases hrun
  | ok r =>
    rw [hbuild] at hrun
    obtain ⟨hroot,hmaps⟩ := Prod.mk.inj (Except.ok.inj hrun)
    refine ⟨r.2,by rw [← hroot],fun k => ?_⟩
    simp only [List.map_cons, List.map_nil, List.cons.injEq, and_true] at hmaps
    obtain ⟨hsimple,hcompound,hfunction,hpointer⟩ := hmaps
    cases k with
    | simple => simp [hsimple]
    | compound => simp [hcompound]
    | function => simp [hfunction]
    | pointer => simp [hpointer]

def parameterVisit : Visit := ⟨.kFunctionDefinition,parameterRoot.subtreeAt [.left]⟩

theorem parameterRoot_visits : visits parameterRoot = [parameterVisit] := rfl

theorem parameterVisit_arguments : ∃ arg, parameterVisit.cur.functionArguments = [arg] ∧ arg.argumentText = "x".toList ∧
    typeIDOf (intConfig true) (TypeSystem.construct (intConfig true) .initial) arg.typeNode = 10 :=
  ⟨_,rfl,by decide +kernel,by decide +kernel⟩

theorem int_basicType : BasicType (TypeSystem.construct (intConfig true) .initial) 10 := ⟨le_rfl,by decide +kernel⟩

theorem ownParameter_notCollected : ∃ u id' root s v n,
    translateNode id parameterProgram 0 = .ok (some u,id') ∧ IR.isScoped u = true ∧ u.getChildNum ≤ 250 ∧
    buildScopeTreeWithSymbolTable (intConfig true) .initial u = .ok (root,s) ∧ v ∈ visits root ∧
    v.kind = .kFunctionDefinition ∧ v.cur.dataType? = some .kFunctionDefinition ∧ v.cur.functionText ≠ [] ∧
    n ∈ v.cur.functionBody.values ∧ n.type ≠ kUnknown ∧
    ∃ arg, v.cur.functionArguments = [arg] ∧
      typeIDOf (intConfig true) (TypeSystem.construct (intConfig true) .initial) arg.typeNode = 10 ∧
      BasicType (TypeSystem.construct (intConfig true) .initial) 10 ∧
      ∀ k, arg.argumentText ∉ (collectAllVarDefinitionByType s.scopes s.types n k).vals 10 := by
  obtain ⟨s,hbuild,hnone⟩ := parameterRoot_built
  obtain ⟨arg,hargs,htext,htype⟩ := parameterVisit_arguments
  refine ⟨parameterIR,11,parameterRoot,s,parameterVisit,parameterUse,parameterIR_translated,by decide +kernel,
    by decide +kernel,hbuild,?_,rfl,by decide +kernel,by decide +kernel,by decide +kernel,by decide,arg,hargs,htype,int_basicType,?_⟩
  · rw [parameterRoot_visits]
    exact List.mem_singleton_self _
  · rwa [htext]

theorem ownParameter_notElsewhere : ∃ s, buildScopeTreeWithSymbolTable (intConfig true) .initial parameterIR =
    .ok (parameterRoot,s) ∧ ∃ arg, parameterVisit.cur.functionArguments = [arg] ∧
      ¬ DefinedElsewhere (intConfig true) (TypeSystem.construct (intConfig true) .initial) parameterRoot s.scopes
        parameterVisit parameterUse arg.argumentText
        (typeIDOf (intConfig true) (TypeSystem.construct (intConfig true) .initial) arg.typeNode) := by
  obtain ⟨s,hbuild,hnone⟩ := parameterRoot_built
  obtain ⟨arg,hargs,htext,htype⟩ := parameterVisit_arguments
  refine ⟨s,hbuild,arg,hargs,fun helse => ?_⟩
  have hvisit : parameterVisit ∈ visits parameterRoot := by
    rw [parameterRoot_visits]
    exact List.mem_singleton_self _
  have hiff := parameters_collected_iff parameterIR_translated (by decide +kernel) (by decide +kernel) hbuild hvisit rfl
    (by rw [hargs, List.forall_mem_singleton, htype]; exact int_basicType)
    (by decide +kernel : parameterUse ∈ parameterVisit.cur.functionBody.values)
  rw [hargs, List.forall_mem_singleton, List.forall_mem_singleton] at hiff
  obtain ⟨k,hk⟩ := hiff.mpr helse
  rw [htext, htype] at hk
  exact hnone k hk

end PolyGlot
