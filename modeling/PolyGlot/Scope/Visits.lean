import PolyGlot.Scope.Symbols
import PolyGlot.Types.Names

set_option autoImplicit false

/-! # What symbol collection visits

The definitions of a tree in the order in which their symbols are recorded, and
what each of them needs and gives, as far as names go. The collectors do what
this list says: they succeed when each visit finds what it needs.
-/
namespace PolyGlot

open BinaryTree Prog

namespace IR

def typeNode (t : IR) : IR := t.searchByDataType .kVariableType .kDataDefault
def firstName (t : IR) : IR := t.searchByDataType .kVariableName .kDataDefault
def variableNames (t : IR) : List IR := t.searchAllByDataType .kVariableName .kDataDefault
def className (t : IR) : IR := t.searchByDataType .kClassName .kDataDefault
def classBody (t : IR) : IR := t.searchByDataType .kClassBody .kDataDefault
def functionName (t : IR) : IR := t.searchByDataType .kFunctionName .kFunctionBody
def returnType (t : IR) : IR := t.searchByDataType .kFunctionReturnType .kFunctionBody
def functionArguments (t : IR) : List IR := t.searchAllByDataType .kFunctionArgument .kFunctionBody
def functionBody (t : IR) : IR := t.searchByDataType .kFunctionBody .kDataDefault

def functionText (t : IR) : Str := stripString t.functionName.render
def classText (t : IR) : Except Fault Str := t.className.getString.map trim
def argumentText (t : IR) : Str := trim t.firstName.render

def typeText (t : IR) : Str := trim t.typeNode.render
def returnTypeText (t : IR) : Str := trim (dropTag t.returnType.render)

end IR

/-- A definition, with the collector that `find_define_type` selects for it. -/
structure Visit where
  kind : DataType
  cur : IR

namespace Visit

def names (known : List Str) (v : Visit) : List Str :=
  match v.kind with
  | .kClassDefinition => match v.cur.classText with
    | .ok name => [name]
    | .error _ => []
  | .kFunctionDefinition =>
    if v.cur.functionText ≠ [] ∧ v.cur.returnType ≠ .nil ∧ v.cur.returnTypeText ∈ known then [v.cur.functionText]
    else []
  | _ => []

def entries (known : List Str) (v : Visit) : List (ScopeID × Str) :=
  match v.kind with
  | .kClassDefinition => (v.names known).map fun name => (v.cur.scopeId,name)
  | .kFunctionDefinition =>
    (v.names known).map (fun name => (v.cur.scopeId,name)) ++
      if v.cur.functionText ≠ [] ∧ v.cur.functionBody ≠ .nil then
        v.cur.functionArguments.map fun arg => (v.cur.functionBody.scopeId,arg.argumentText)
      else []
  | _ => v.cur.variableNames.map fun name => (v.cur.scopeId,name.render)

def Survives (cfg : Configuration) (known : List Str) (v : Visit) : Prop :=
  match v.kind with
  | .kClassDefinition => v.cur.dataType? = some .kClassDefinition ∧ v.cur.classBody ≠ .nil ∧
      ∃ name, v.cur.className.getString = .ok name
  | .kFunctionDefinition => v.cur.functionName ≠ .nil ∧ (v.cur.functionText ≠ [] →
      ∀ arg ∈ v.cur.functionArguments, arg.firstName ≠ .nil ∧ arg.typeNode ≠ .nil ∧ arg.typeText ∈ known)
  | _ => cfg.isWeakType = true ∨ v.cur.typeNode = .nil ∨ v.cur.typeText ∈ known

end Visit

def knownAfter (known : List Str) (vs : List Visit) : List Str := vs.foldl (fun known v => known ++ v.names known) known

def entriesOf (known : List Str) : List Visit → List (ScopeID × Str)
  | [] => []
  | v :: vs => v.entries known ++ entriesOf (known ++ v.names known) vs

def VisitsSurvive (cfg : Configuration) (known : List Str) : List Visit → Prop
  | [] => True
  | v :: vs => v.Survives cfg known ∧ VisitsSurvive cfg (known ++ v.names known) vs

/-- `inner` are the visits of a body. A class comes after those of its body, as
its members are taken from there. -/
def visitsFrom (inner : IR → List Visit) : IR → List Visit
  | .nil => []
  | .node n l r =>
    let cur : IR := .node n l r
    if isDefinition n then
      match cur.findDefineType with
      | .kClassDefinition => inner cur.classBody ++ [⟨.kClassDefinition,cur⟩]
      | .kFunctionDefinition => ⟨.kFunctionDefinition,cur⟩ :: if cur.functionText = [] then [] else inner cur.functionBody
      | kind => [⟨kind,cur⟩]
    else visitsFrom inner l ++ visitsFrom inner r

def visitsRec : ℕ → IR → List Visit
  | 0, _ => []
  | depth + 1, t => visitsFrom (visitsRec depth) t

def visits (root : IR) : List Visit := visitsRec root.getChildNum root

section Lists
variable {cfg : Configuration} {known : List Str} {vs ws : List Visit} {v : Visit}

@[simp] theorem knownAfter_nil : knownAfter known [] = known := rfl
@[simp] theorem knownAfter_cons : knownAfter known (v :: vs) = knownAfter (known ++ v.names known) vs := rfl
@[simp] theorem entriesOf_nil : entriesOf known [] = [] := rfl
@[simp] theorem entriesOf_cons :
    entriesOf known (v :: vs) = v.entries known ++ entriesOf (known ++ v.names known) vs := rfl
@[simp] theorem visitsSurvive_nil : VisitsSurvive cfg known [] ↔ True := Iff.rfl
@[simp] theorem visitsSurvive_cons :
    VisitsSurvive cfg known (v :: vs) ↔ v.Survives cfg known ∧ VisitsSurvive cfg (known ++ v.names known) vs := Iff.rfl

theorem knownAfter_append : knownAfter known (vs ++ ws) = knownAfter (knownAfter known vs) ws := List.foldl_append

theorem entriesOf_append : entriesOf known (vs ++ ws) = entriesOf known vs ++ entriesOf (knownAfter known vs) ws := by
  induction vs generalizing known with
  | nil => rfl
  | cons v vs ih => simp [ih]

theorem visitsSurvive_append :
    VisitsSurvive cfg known (vs ++ ws) ↔ VisitsSurvive cfg known vs ∧ VisitsSurvive cfg (knownAfter known vs) ws := by
  induction vs generalizing known with
  | nil => simp
  | cons v vs ih => simp [ih, and_assoc]

section Node
variable {inner : IR → List Visit} {n : IRNode} {l r : IR}

theorem visitsFrom_class (hn : isDefinition n = true) (hkind : IR.findDefineType (.node n l r) = .kClassDefinition) :
    visitsFrom inner (.node n l r) =
      inner (IR.classBody (.node n l r)) ++ [⟨.kClassDefinition,.node n l r⟩] := by
  simp only [visitsFrom, if_pos hn, hkind]

theorem visitsFrom_function (hn : isDefinition n = true)
    (hkind : IR.findDefineType (.node n l r) = .kFunctionDefinition) :
    visitsFrom inner (.node n l r) = ⟨.kFunctionDefinition,.node n l r⟩ ::
      if IR.functionText (.node n l r) = [] then [] else inner (IR.functionBody (.node n l r)) := by
  simp only [visitsFrom, if_pos hn, hkind]

theorem visitsFrom_variable (hn : isDefinition n = true)
    (hclass : IR.findDefineType (.node n l r) ≠ .kClassDefinition)
    (hfunction : IR.findDefineType (.node n l r) ≠ .kFunctionDefinition) :
    visitsFrom inner (.node n l r) = [⟨IR.findDefineType (.node n l r),.node n l r⟩] := by
  rw [visitsFrom, if_pos hn]
  split
  · exact absurd ‹_› hclass
  · exact absurd ‹_› hfunction
  · rfl

theorem visitsFrom_other (hn : ¬ isDefinition n = true) :
    visitsFrom inner (.node n l r) = visitsFrom inner l ++ visitsFrom inner r := by
  rw [visitsFrom, if_neg hn]

end Node

theorem visitsRec_nil (depth : ℕ) : visitsRec depth .nil = [] := by cases depth <;> rfl

/-- Where nothing is defined nothing is visited. -/
theorem visitsFrom_eq_nil {inner : IR → List Visit} {t : IR} (h : t.containsDefinition = false) :
    visitsFrom inner t = [] := by
  induction t with
  | nil => rfl
  | node n l r ihl ihr =>
    simp only [IR.containsDefinition, Bool.or_eq_false_iff] at h
    rw [visitsFrom_other (by simp [h.1.1]), ihl h.1.2, ihr h.2]
    rfl

end Lists

def SymbolTable.names (m : SymbolTable) : List Str := VectorMap.bag (fun _ ds => ds.map Definition.name) m

def ScopeTree.entries (st : ScopeTree) : List (ScopeID × Str) :=
  VectorMap.bag (fun id s => s.symbolTable.names.map fun name => (id,name)) st.scopes

structure Adds (es : List (ScopeID × Str)) (s t : CollectState) : Prop where
  types : t.types = s.types
  scopes : ∀ i, i ∈ t.scopes.scopes ↔ i ∈ s.scopes.scopes
  entries : t.scopes.entries.Perm (es ++ s.scopes.entries)

def Placed (s : CollectState) (t : IR) : Prop := ∀ n ∈ t.values, n.scopeId ∈ s.scopes.scopes

def Knows (known : List Str) (s : CollectState) : Prop := ∀ x, x ∈ s.types.names ↔ x ∈ known

structure Records (known : List Str) (es : List (ScopeID × Str)) (s t : CollectState) : Prop where
  scopes : ∀ i, i ∈ t.scopes.scopes ↔ i ∈ s.scopes.scopes
  names : Knows known t
  entries : t.scopes.entries.Perm (es ++ s.scopes.entries)

def Collected (known : List Str) (vs : List Visit) : CollectState → CollectState → Prop :=
  Records (knownAfter known vs) (entriesOf known vs)

section States
variable {cfg : Configuration} {known : List Str} {vs ws : List Visit} {s t u : CollectState} {cur : IR}
  {es es' : List (ScopeID × Str)}

theorem entries_trans {before after last : List (ScopeID × Str)} (h : after.Perm (es ++ before))
    (h' : last.Perm (es' ++ after)) : last.Perm (es ++ es' ++ before) := by
  calc last
    List.Perm _ (es' ++ after) := h'
    List.Perm _ (es' ++ (es ++ before)) := h.append_left _
    List.Perm _ (es ++ es' ++ before) := by
      rw [← List.append_assoc]
      exact List.perm_append_comm.append_right _

theorem Adds.refl : Adds [] s s := ⟨rfl,fun _ => Iff.rfl,.refl _⟩

theorem Adds.trans (h : Adds es s t) (h' : Adds es' t u) : Adds (es ++ es') s u := by
  exact ⟨h'.types.trans h.types,fun i => (h'.scopes i).trans (h.scopes i),entries_trans h.entries h'.entries⟩

theorem Adds.records (h : Adds es s t) (hk : Knows known s) : Records known es s t :=
  ⟨h.scopes,fun x => by rw [h.types]; exact hk x,h.entries⟩

theorem Records.trans {known' : List Str} (h : Records known es s t) (h' : Records known' es' t u) :
    Records known' (es ++ es') s u := by
  exact ⟨fun i => (h'.scopes i).trans (h.scopes i),h'.names,entries_trans h.entries h'.entries⟩

theorem Collected.refl (h : Knows known s) : Collected known [] s s := ⟨fun _ => Iff.rfl,h,.refl _⟩

theorem Collected.trans (h : Collected known vs s t) (h' : Collected (knownAfter known vs) ws t u) :
    Collected known (vs ++ ws) s u := by
  unfold Collected
  rw [knownAfter_append, entriesOf_append]
  exact Records.trans h h'

theorem Records.placed (h : Records known es s t) (hcur : Placed s cur) : Placed t cur :=
  fun n hn => (h.scopes _).mpr (hcur n hn)

theorem Placed.subtreeAt (h : Placed s cur) (q : Path) : Placed s (cur.subtreeAt q) :=
  fun n hn => h n ((subtreeAt_values_sublist cur q).subset hn)

theorem Placed.scopeId (h : Placed s cur) (hcur : cur ≠ .nil) : cur.scopeId ∈ s.scopes.scopes := by
  cases cur with
  | nil => exact absurd rfl hcur
  | node n l r => exact h n (List.mem_cons_self ..)

theorem Placed.search (h : Placed s cur) {type forbid : DataType} : Placed s (cur.searchByDataType type forbid) := by
  by_cases hnil : cur.searchByDataType type forbid = .nil
  · rw [hnil]
    exact fun n hn => by simp [values] at hn
  · obtain ⟨q,n,l,r,hq,_,heq⟩ := IR.searchByDataType_place hnil
    rw [heq, ← hq]
    exact h.subtreeAt q

theorem SymbolTable.names_push (m : SymbolTable) (d : Definition) :
    SymbolTable.names (m.push d.type d) |>.Perm (d.name :: m.names) := by
  have hset : ∀ k' : TypeID, (VectorMap.push m d.type d)[k']? =
      if d.type = k' then some (VectorMap.vals m d.type ++ [d]) else m[k']? := fun _ => VectorMap.getElem?_push
  have hnew : ((VectorMap.vals m d.type ++ [d]).map Definition.name).Perm
      ([d.name] ++ m[d.type]?.elim [] (fun ds => ds.map Definition.name)) := by
    unfold VectorMap.vals
    cases m[d.type]? with
    | none => exact .refl _
    | some ds =>
      rw [Option.getD_some, Option.elim_some, List.map_append]
      exact List.perm_append_comm
  exact VectorMap.bag_set (f := fun _ ds => ds.map Definition.name) hset hnew

theorem addDefinition_adds {id : ScopeID} {d : Definition} (hid : id ∈ s.scopes.scopes)
    (hd : d.type ≠ SpecialType.kNotExist) : Meets (addDefinition id d) s fun _ t => Adds [(id, d.name)] s t := by
  obtain ⟨sc,hsc⟩ := Option.isSome_iff_exists.mp (Std.TreeMap.mem_iff_isSome_getElem?.mp hid)
  have hget : s.scopes.getScopeById id = some sc := hsc
  refine ⟨(),{ s with scopes := { s.scopes with
    scopes := s.scopes.scopes.modify id (Scope.addDefinition d)
    ok := s.scopes.ok.addDefinition id d
    current_mem := fun i hi => Std.TreeMap.mem_modify.mpr (s.scopes.current_mem i hi) } },?_,rfl,?_,?_⟩
  · simp only [addDefinition, ScopeTree.addDefinition]
    split
    · rename_i h
      split at h
      · rename_i hnone
        rw [hget] at hnone
        cases hnone
      · cases h
    · rename_i h
      split at h
      · cases h
      · cases h
        rfl
  · exact fun i => Std.TreeMap.mem_modify
  · have hnew : ((sc.addDefinition d).symbolTable.names.map fun name => (id, name)).Perm
        ([(id, d.name)] ++ s.scopes.scopes[id]?.elim [] fun sc => sc.symbolTable.names.map fun name => (id, name)) := by
      rw [hsc, Option.elim_some, Scope.addDefinition, if_neg hd]
      exact (sc.symbolTable.names_push d).map _
    exact VectorMap.bag_set (f := fun id sc => sc.symbolTable.names.map fun name => (id, name))
      (getElem?_addDefinition hsc d) hnew

/-- A loop that records definitions in one scope. -/
theorem forM_addDefinition {α : Type} {id : ScopeID} (f : α → Definition) (l : List α) (hid : id ∈ s.scopes.scopes)
    (hd : ∀ a ∈ l, (f a).type ≠ SpecialType.kNotExist) :
    Meets (l.forM fun a => addDefinition id (f a)) s fun _ t => Adds (l.map fun a => (id, (f a).name)) s t := by
  have hloop := Decides.forM (f := fun a => addDefinition id (f a)) (c := fun _ => True)
    (P := fun before t => Adds (before.map fun a => (id, (f a).name)) s t) l .refl (by
      intro before a t ha hP
      apply Decides.of_meets
      apply (addDefinition_adds ((hP.scopes id).mpr hid) (hd a ha)).mono
      intro _ u hu
      simpa using hP.trans hu)
  exact hloop.meets fun _ _ => trivial

theorem typeIDOf_ne_iff (hk : Knows known s) (typeIR : IR) :
    typeIDOf cfg s.types typeIR ≠ SpecialType.kNotExist ↔ trim typeIR.render ∈ known :=
  TypeSystem.getTypeIDByStr_ne_iff.trans (hk _)

end States

end PolyGlot
