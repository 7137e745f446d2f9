import PolyGlot.Scope.Recorded

set_option autoImplicit false

/-! # Where definitions come from

A definition in a symbol table has the id of a node of the tree, of one that has
a data type.
-/
namespace PolyGlot

open BinaryTree Prog

namespace IR

def Defines (t : IR) (i : StatementID) : Prop := ∃ n ∈ t.values, n.dataType ≠ .kDataDefault ∧ n.statementId = i

variable {t u : IR} {i : StatementID} {type forbid : DataType}

theorem Defines.of_subtreeAt {p : Path} (h : Defines (t.subtreeAt p) i) : t.Defines i := by
  obtain ⟨n,hn,hi⟩ := h
  exact ⟨n,(subtreeAt_values_sublist t p).subset hn,hi⟩

theorem defines_root {n : IRNode} {l r : IR} (hn : n.dataType ≠ .kDataDefault) :
    Defines (.node n l r) n.statementId :=
  ⟨n,List.mem_cons_self ..,hn,rfl⟩

theorem Defines.of_search (h : Defines (t.searchByDataType type forbid) i) : t.Defines i := by
  by_cases hnil : t.searchByDataType type forbid = .nil
  · rw [hnil] at h
    obtain ⟨n,hn,_⟩ := h
    cases hn
  · obtain ⟨q,n,l,r,hq,_,heq⟩ := searchByDataType_place hnil
    rw [heq, ← hq] at h
    exact h.of_subtreeAt

theorem search_defines (htype : type ≠ .kDataDefault) (h : t.searchByDataType type forbid ≠ .nil) :
    t.Defines (t.searchByDataType type forbid).statementId := by
  obtain ⟨q,n,l,r,hq,hn,heq⟩ := searchByDataType_place h
  have hdefines : Defines (t.subtreeAt q) n.statementId := by
    rw [hq]
    exact defines_root (hn ▸ htype)
  rw [heq]
  exact hdefines.of_subtreeAt

theorem searchAll_defines (htype : type ≠ .kDataDefault) (h : u ∈ t.searchAllByDataType type forbid) :
    t.Defines u.statementId := by
  obtain ⟨n,l,r,rfl,hn⟩ := root_of_mem_outermost h
  obtain ⟨q,hq,_⟩ := mem_outermost.mp h
  have hdefines : Defines (t.subtreeAt q) n.statementId := by
    rw [hq]
    exact defines_root ((of_decide_eq_true hn : n.dataType = type) ▸ htype)
  exact hdefines.of_subtreeAt

end IR

def RecordedFrom (I : StatementID → Prop) (s : CollectState) : Prop :=
  ∀ (id : ScopeID) (sc : Scope) (t : TypeID) (d : Definition), s.scopes.getScopeById id = some sc →
    d ∈ sc.symbolTable.vals t → I d.statementId

section Collectors
variable {cfg : Configuration} {I : StatementID → Prop} {s t : CollectState} {cur : IR}

theorem addDefinition_recordedFrom {id : ScopeID} {d : Definition} (h : RecordedFrom I s) (hd : I d.statementId) :
    Attains (addDefinition id d) s fun _ => RecordedFrom I := by
  constructor
  intro _ t hrun i sc' τ d' hsc' hd'
  obtain ⟨sc,hsc,_,hscopes⟩ := addDefinition_run hrun
  rw [hscopes] at hsc'
  by_cases hi : id = i
  · subst hi
    rw [if_pos rfl, Option.some.injEq] at hsc'
    subst hsc'
    rcases Scope.mem_addDefinition.mp hd' with hd' | ⟨_,_,rfl⟩
    · exact h id sc τ d' hsc hd'
    · exact hd
  · rw [if_neg hi] at hsc'
    exact h i sc' τ d' hsc' hd'

theorem forM_addDefinition_recordedFrom {α : Type} {id : ScopeID} (f : α → Definition) (l : List α)
    (h : RecordedFrom I s) (hl : ∀ a ∈ l, I (f a).statementId) :
    Attains (l.forM fun a => addDefinition id (f a)) s fun _ => RecordedFrom I := by
  apply Attains.forM (P := fun _ => RecordedFrom I) l h
  intro _ a t ha ht
  exact addDefinition_recordedFrom ht (hl a ha)

/-- The type alone does not change what is recorded. -/
theorem simpleType_recordedFrom (h : RecordedFrom I s) : Attains (simpleType cfg cur) s fun _ => RecordedFrom I := by
  unfold simpleType
  dsimp only
  split
  · exact Attains.pure h
  · apply Attains.get_bind
    split
    · exact Attains.pure h
    · apply Attains.assertThat.bind
      rintro _ _ ⟨_,rfl⟩
      exact Attains.pure h

theorem collectSimpleVariableDefinition_recordedFrom (hcur : ∀ i, cur.Defines i → I i) (h : RecordedFrom I s) :
    Attains (collectSimpleVariableDefinition cfg cur) s fun _ => RecordedFrom I := by
  unfold collectSimpleVariableDefinition
  apply (simpleType_recordedFrom h).bind
  intro type t ht
  apply forM_addDefinition_recordedFrom (fun name : IR => ⟨name.render,type,name.statementId⟩) _ ht
  intro name hname
  exact hcur _ (IR.searchAll_defines (by decide) hname)

def RecordsFrom (I : StatementID → Prop) (inner : IR → Collect Unit) : Prop :=
  ∀ body s, (∀ i, body.Defines i → I i) → RecordedFrom I s → Attains (inner body) s fun _ => RecordedFrom I

theorem collectStructureDefinition_recordedFrom {inner : IR → Collect Unit} (hinner : RecordsFrom I inner)
    (hcur : ∀ i, cur.Defines i → I i) (hself : I cur.statementId) (h : RecordedFrom I s) :
    Attains (collectStructureDefinition inner cur) s fun _ => RecordedFrom I := by
  apply collectStructureDefinition_after (hinner _ _ (fun i hi => hcur i hi.of_search) h)
  intro name t types' ht _
  exact addDefinition_recordedFrom ht hself

theorem collectFunctionDefinition_recordedFrom {inner : IR → Collect Unit} (hinner : RecordsFrom I inner)
    (hcur : ∀ i, cur.Defines i → I i) (hself : I cur.statementId) (h : RecordedFrom I s) :
    Attains (collectFunctionDefinition cfg inner cur) s fun _ => RecordedFrom I := by
  unfold collectFunctionDefinition
  apply Attains.assertThat.bind
  rintro _ _ ⟨hname,rfl⟩
  dsimp only
  split
  · exact Attains.pure h
  · apply Attains.get_bind
    apply (Attains.lift ..).bind
    rintro args u ⟨_,rfl⟩
    apply (checkArguments_attains args).bind
    rintro _ v rfl
    have hfunction : ∀ returnType name, Attains (onlyIf (returnType ≠ SpecialType.kNotExist) do
        let id ← createFunctionType name returnType args
        addDefinition cur.scopeId ⟨name,id,(cur.searchByDataType .kFunctionName .kFunctionBody).statementId⟩) v
        fun _ => RecordedFrom I := by
      intro returnType name
      apply Attains.onlyIf
      · intro _
        apply (createFunctionType_attains ..).bind
        rintro id _ ⟨_,types',_,rfl⟩
        exact addDefinition_recordedFrom h (hcur _ (IR.search_defines (by decide) hname))
      · exact fun _ => h
    apply (hfunction _ _).bind
    intro _ t ht
    apply Attains.onlyIf
    · intro _
      apply (forM_addDefinition_recordedFrom (fun a : TypeID × Str => ⟨a.2,a.1,cur.statementId⟩) _ ht fun _ _ => hself).bind
      intro _ u hu
      exact hinner _ u (fun i hi => hcur i hi.of_search) hu
    · exact fun _ => ht

theorem collectDefinition_recordedFrom {inner : IR → Collect Unit} (hinner : RecordsFrom I inner) :
    RecordsFrom I (collectDefinition cfg inner) := by
  intro t
  induction t with
  | nil => exact fun s _ h => Attains.pure h
  | node n l r ihl ihr =>
    intro s hcur h
    by_cases hn : isDefinition n = true
    · have hself : I (IR.statementId (.node n l r)) := by
        apply hcur
        apply IR.defines_root
        intro hdefault
        simp [isDefinition, hdefault] at hn
      by_cases hclass : IR.findDefineType (.node n l r) = .kClassDefinition
      · rw [collectDefinition_class hn hclass]
        exact collectStructureDefinition_recordedFrom hinner hcur hself h
      · by_cases hfunction : IR.findDefineType (.node n l r) = .kFunctionDefinition
        · rw [collectDefinition_function hn hfunction]
          exact collectFunctionDefinition_recordedFrom hinner hcur hself h
        · rw [collectDefinition_variable hn hclass hfunction]
          exact collectSimpleVariableDefinition_recordedFrom hcur h
    · rw [collectDefinition, if_neg hn]
      apply (ihl s (fun i hi => hcur i (hi.of_subtreeAt (t := .node n l r) (p := [.left]))) h).bind
      intro _ t ht
      exact ihr t (fun i hi => hcur i (hi.of_subtreeAt (t := .node n l r) (p := [.right]))) ht

theorem createSymbolTableRec_recordedFrom (fuel recursiveCounter : ℕ) :
    RecordsFrom I (createSymbolTableRec cfg fuel recursiveCounter) := by
  induction fuel generalizing recursiveCounter with
  | zero => exact fun _ _ _ _ => Attains.fail
  | succ fuel ih =>
    intro t s hcur h
    rw [createSymbolTableRec]
    split
    · exact Attains.pure h
    · apply Attains.onlyIf
      · intro _
        exact collectDefinition_recordedFrom (ih _) t s hcur h
      · exact fun _ => h

/-- After the collection every recorded definition has the id of a node of the
tree. -/
theorem buildScopeTreeWithSymbolTable_recordedFrom {before : TypeSystem} {root root' : IR} (hroot : IR.isScoped root = true)
    (hbuild : buildScopeTreeWithSymbolTable cfg before root = .ok (root',s)) :
    RecordedFrom root'.Defines s ∧ root'.dropScopeIds = root.dropScopeIds := by
  obtain ⟨scopes,hmirror,hsymbols⟩ := buildScopeTreeWithSymbolTable_run hroot hbuild
  have hempty : RecordedFrom root'.Defines ⟨TypeSystem.construct cfg before,scopes⟩ := by
    intro id sc t d hsc hd
    rw [hmirror.symbolTable_eq hsc] at hd
    simp at hd
  refine ⟨?_,hmirror.same⟩
  exact (createSymbolTableRec_recordedFrom _ _ root' _ (fun _ h => h) hempty).of_run _ _ hsymbols

end Collectors

end PolyGlot
