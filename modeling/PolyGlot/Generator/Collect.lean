import PolyGlot.Scope.ScopeTree
import PolyGlot.Support.Saturation

set_option autoImplicit false

/-! # What an expression can be made from

The variables and functions that a node may use, grouped by kind and type, and
the types of which they let the generator make a value.
-/
namespace PolyGlot

open TypeSystem

def collectedAs : TypeKind → List TypeKind
  | .function => [.function]
  | .compound => [.compound]
  | .pointer => [.pointer, .simple]
  | .simple => [.simple]

/-- `var_maps`: the names under each type, for simple variables, compound
variables, functions and pointers. -/
abbrev VarMaps := TypeKind → VectorMap TypeID Str

namespace VarMaps

def empty : VarMaps := fun _ => ∅

def push (m : VarMaps) (k : TypeKind) (t : TypeID) (name : Str) : VarMaps :=
  fun k' => if k' = k then (m k').push t name else m k'

theorem mem_push {m : VarMaps} {k k' : TypeKind} {t t' : TypeID} {name x : Str} :
    x ∈ (m.push k t name k').vals t' ↔ x ∈ (m k').vals t' ∨ k' = k ∧ t = t' ∧ x = name := by
  unfold push
  split
  · rw [VectorMap.mem_vals_push]
    simp [*]
  · simp [*]

def AllFilled (m : VarMaps) : Prop := ∀ k, (m k).Filled

theorem allFilled_empty : AllFilled empty := fun _ => VectorMap.filled_empty

theorem AllFilled.push {m : VarMaps} (hm : m.AllFilled) {k : TypeKind} {t : TypeID} {name : Str} :
    (m.push k t name).AllFilled := by
  intro k'
  unfold VarMaps.push
  by_cases h : k' = k
  · rw [if_pos h]
    exact (hm k').push
  · rw [if_neg h]
    exact hm k'

structure Sorted (ts : TypeSystem) (m : VarMaps) : Prop where
  filled : m.AllFilled
  kind : ∀ k t, t ∈ m k → ∃ v, ts.getTypePtrByID t = some v ∧ k ∈ collectedAs v.kind

theorem collectedAs_compound {k : TypeKind} : .compound ∈ collectedAs k ↔ k = .compound := by cases k <;> decide
theorem collectedAs_function {k : TypeKind} : .function ∈ collectedAs k ↔ k = .function := by cases k <;> decide

variable {ts : TypeSystem} {m : VarMaps} {t : TypeID}

theorem Sorted.compound (h : m.Sorted ts) (t : TypeID) (ht : t ∈ m .compound) :
    ∃ v, ts.getTypePtrByID t = some v ∧ v.kind = .compound := by
  obtain ⟨v,hv,hk⟩ := h.kind .compound t ht
  exact ⟨v,hv,collectedAs_compound.mp hk⟩

theorem Sorted.function (h : m.Sorted ts) (t : TypeID) (ht : t ∈ m .function) :
    ∃ v, ts.getTypePtrByID t = some v ∧ v.kind = .function := by
  obtain ⟨v,hv,hk⟩ := h.kind .function t ht
  exact ⟨v,hv,collectedAs_function.mp hk⟩

end VarMaps

section Visible
variable (st : ScopeTree) (ts : TypeSystem) (cur : IRNode)

def collectInto (iter : TypeID × List Definition) (m : VarMaps) (k : TypeKind) : VarMaps :=
  (iter.2.filter (·.statementId < cur.statementId)).foldl (fun m d => m.push k iter.1 d.name) m

def collectTable (m : VarMaps) (iter : TypeID × List Definition) : VarMaps :=
  match ts.getTypePtrByID iter.1 with
  | none => m
  | some v => (collectedAs v.kind).foldl (collectInto cur iter) m

/-- `collect_all_var_definition_by_type`; the built-in maps at its end are empty. -/
def collectAllVarDefinitionByType : VarMaps :=
  (st.enclosing cur.scopeId).foldl (fun m s => s.2.symbolTable.toList.foldl (collectTable ts cur) m) .empty

/-- A definition of type `t` that stands in the scope of the node or one around
it and has the smaller id. -/
def Visible (t : TypeID) (d : Definition) : Prop :=
  ∃ s ∈ st.enclosing cur.scopeId, d ∈ s.2.symbolTable.vals t ∧ d.statementId < cur.statementId

variable {st ts cur}

theorem mem_collectTable {m : VarMaps} {iter : TypeID × List Definition} {k : TypeKind} {t : TypeID} {x : Str} :
    x ∈ (collectTable ts cur m iter k).vals t ↔ x ∈ (m k).vals t ∨
      (iter.1 = t ∧ (∃ v, ts.getTypePtrByID t = some v ∧ k ∈ collectedAs v.kind) ∧
        ∃ d ∈ iter.2, d.statementId < cur.statementId ∧ d.name = x) := by
  unfold collectTable
  cases hv : ts.getTypePtrByID iter.1 with
  | none =>
    simp only [iff_self_or]
    rintro ⟨rfl,⟨v,hv',_⟩,_⟩
    rw [hv] at hv'
    cases hv'
  | some v =>
    have hpush : ∀ (k' : TypeKind) (m : VarMaps) (d : Definition), x ∈ (m.push k' iter.1 d.name k).vals t ↔
        x ∈ (m k).vals t ∨ k = k' ∧ iter.1 = t ∧ x = d.name := fun k' m d => VarMaps.mem_push
    have hinto : ∀ (m : VarMaps) (k' : TypeKind), x ∈ (collectInto cur iter m k' k).vals t ↔ x ∈ (m k).vals t ∨
        ∃ d ∈ iter.2.filter (·.statementId < cur.statementId), k = k' ∧ iter.1 = t ∧ x = d.name := fun m k' =>
      VectorMap.foldl_iff (p := fun m : VarMaps => x ∈ (m k).vals t) (hpush k') _ _
    change x ∈ ((collectedAs v.kind).foldl (collectInto cur iter) m k).vals t ↔ _
    rw [VectorMap.foldl_iff (p := fun m : VarMaps => x ∈ (m k).vals t) hinto]
    apply or_congr_right
    constructor
    · rintro ⟨_,hk,d,hd,rfl,ht,rfl⟩
      obtain ⟨hd,hless⟩ := List.mem_filter.mp hd
      exact ⟨ht,⟨v,ht ▸ hv,hk⟩,d,hd,of_decide_eq_true hless,rfl⟩
    · rintro ⟨ht,⟨v',hv',hk⟩,d,hd,hless,rfl⟩
      rw [← ht, hv] at hv'
      cases hv'
      exact ⟨k,hk,d,List.mem_filter.mpr ⟨hd,decide_eq_true hless⟩,rfl,ht,rfl⟩

/-- The names that are collected under a type are those of the definitions of
that type that the node can see. -/
theorem mem_collect {k : TypeKind} {t : TypeID} {x : Str} :
    x ∈ (collectAllVarDefinitionByType st ts cur k).vals t ↔
      (∃ v, ts.getTypePtrByID t = some v ∧ k ∈ collectedAs v.kind) ∧ ∃ d, Visible st cur t d ∧ d.name = x := by
  have htable : ∀ (m : VarMaps) (iter : TypeID × List Definition), x ∈ (collectTable ts cur m iter k).vals t ↔
      x ∈ (m k).vals t ∨ (iter.1 = t ∧ (∃ v, ts.getTypePtrByID t = some v ∧ k ∈ collectedAs v.kind) ∧
        ∃ d ∈ iter.2, d.statementId < cur.statementId ∧ d.name = x) := fun m iter => mem_collectTable
  have hscope : ∀ (m : VarMaps) (s : ScopeID × Scope),
      x ∈ (s.2.symbolTable.toList.foldl (collectTable ts cur) m k).vals t ↔ x ∈ (m k).vals t ∨
        ∃ iter ∈ s.2.symbolTable.toList, iter.1 = t ∧ (∃ v, ts.getTypePtrByID t = some v ∧ k ∈ collectedAs v.kind) ∧
          ∃ d ∈ iter.2, d.statementId < cur.statementId ∧ d.name = x := fun m s =>
    VectorMap.foldl_iff (p := fun m : VarMaps => x ∈ (m k).vals t) htable _ _
  unfold collectAllVarDefinitionByType
  rw [VectorMap.foldl_iff (p := fun m : VarMaps => x ∈ (m k).vals t) hscope]
  simp only [VarMaps.empty, VectorMap.vals_empty, List.not_mem_nil, false_or]
  constructor
  · rintro ⟨s,hs,⟨_,l⟩,hl,rfl,hv,d,hd,hless,rfl⟩
    exact ⟨hv,d,⟨s,hs,by rwa [VectorMap.vals_of_entry hl],hless⟩,rfl⟩
  · rintro ⟨hv,d,⟨s,hs,hd,hless⟩,rfl⟩
    exact ⟨s,hs,_,VectorMap.exists_entry hd,rfl,hv,d,hd,hless,rfl⟩

theorem collectTable_filled {m : VarMaps} (hm : m.AllFilled) (iter : TypeID × List Definition) :
    (collectTable ts cur m iter).AllFilled := by
  unfold collectTable
  cases ts.getTypePtrByID iter.1 with
  | none => exact hm
  | some v =>
    exact List.foldlRecOn (motive := VarMaps.AllFilled) _ _ hm fun m hm k _ =>
      List.foldlRecOn (motive := VarMaps.AllFilled) _ _ hm fun m hm d _ => hm.push

theorem collect_filled : (collectAllVarDefinitionByType st ts cur).AllFilled :=
  List.foldlRecOn (motive := VarMaps.AllFilled) _ _ VarMaps.allFilled_empty fun _ hm _ _ =>
    List.foldlRecOn (motive := VarMaps.AllFilled) _ _ hm fun _ hm iter _ => collectTable_filled hm iter

theorem collect_sorted : (collectAllVarDefinitionByType st ts cur).Sorted ts := by
  refine ⟨collect_filled,fun k t ht => ?_⟩
  obtain ⟨x,hx⟩ := (collect_filled k).mem_iff.mp ht
  exact (mem_collect.mp hx).1

end Visible

abbrev Handlers := TypeKind → Finset TypeID

abbrev Satisfiable := Std.TreeMap TypeID Handlers

namespace Satisfiable

def handlers (m : Satisfiable) (t : TypeID) : Handlers := m[t]?.getD fun _ => ∅

/-- `res[type][k].insert(source)`, after making the entry where it is missing. -/
def add (m : Satisfiable) (t : TypeID) (k : TypeKind) (source : TypeID) : Satisfiable :=
  m.insert t fun k' => if k' = k then insert source (m.handlers t k') else m.handlers t k'

def Sourced (m : Satisfiable) : Prop := ∀ t ∈ m, ∃ k s, s ∈ m.handlers t k

variable {m : Satisfiable} {t t' : TypeID} {k k' : TypeKind} {source s : TypeID}

theorem getElem?_add : (m.add t k source)[t']? = if t = t' then
    some (fun k' => if k' = k then insert source (m.handlers t k') else m.handlers t k') else m[t']? := by
  rw [add, Std.TreeMap.getElem?_insert]
  by_cases h : t = t'
  · rw [if_pos h, if_pos (Std.LawfulEqCmp.compare_eq_iff_eq.mpr h)]
  · rw [if_neg h, if_neg (mt Std.LawfulEqCmp.compare_eq_iff_eq.mp h)]

theorem mem_handlers_add : s ∈ (m.add t k source).handlers t' k' ↔
    s ∈ m.handlers t' k' ∨ t = t' ∧ k = k' ∧ source = s := by
  rw [handlers, getElem?_add]
  by_cases ht : t = t'
  · subst ht
    by_cases hk : k' = k
    · subst hk
      simp [or_comm, eq_comm]
    · simp [hk, Ne.symm hk]
  · simp [ht, handlers]

theorem Sourced.add (hm : m.Sourced) : (m.add t k source).Sourced := by
  intro t' ht'
  by_cases h : t = t'
  · exact ⟨k,source,mem_handlers_add.mpr (.inr ⟨h,rfl,rfl⟩)⟩
  · have hmem : t' ∈ m := by
      rw [Std.TreeMap.mem_iff_isSome_getElem?, getElem?_add, if_neg h] at ht'
      exact Std.TreeMap.mem_iff_isSome_getElem?.mpr ht'
    obtain ⟨k',s,hs⟩ := hm t' hmem
    exact ⟨k',s,mem_handlers_add.mpr (.inl hs)⟩

theorem sourced_empty : Sourced ∅ := by
  intro t ht
  simp at ht

theorem mem_of_handlers (h : s ∈ m.handlers t k) : t ∈ m := by
  unfold handlers at h
  rw [Std.TreeMap.mem_iff_isSome_getElem?]
  cases hm : m[t]? with
  | none => simp [hm] at h
  | some _ => rfl

theorem Sourced.foldl {β : Type} {f : β → TypeID × TypeKind × TypeID} (hm : m.Sourced) (l : List β) :
    Sourced (l.foldl (fun m b => m.add (f b).1 (f b).2.1 (f b).2.2) m) := by
  induction l generalizing m with
  | nil => exact hm
  | cons b l ih => exact ih hm.add

end Satisfiable

section
variable (weak : Bool) (ts : TypeSystem)

def collectStructures : List TypeID → Satisfiable → Finset TypeID → Except Fault (Satisfiable × Finset TypeID)
  | [], res, currentTypes => .ok (res, currentTypes)
  | type :: types, res, currentTypes =>
    match getAllTypesFromCompoundType weak ts type with
    | .error f => .error f
    | .ok memberTypes =>
      collectStructures types
        (memberTypes.foldl (fun res m => res.add m .compound type) (res.add type .compound type))
        (currentTypes ∪ memberTypes.toFinset)

/-- The set-up of the function graph, where a null pointer would be dereferenced. -/
def functionGraph (functionTypes : List TypeID) : Option (List (TypeID × FunctionType)) :=
  functionTypes.mapM fun t => (ts.getFunctionType t).map (t, ·)

def calcSatisfiableFunctions (functionTypes : List TypeID) (availableTypes : Finset TypeID) :
    Except Fault (List (TypeID × FunctionType)) :=
  match functionGraph ts functionTypes with
  | none => .error .nullDeref
  | some funcMap =>
    let unsatisfied := (Saturation.saturate (fun f => f.2.argTypes.toFinset) (fun f => f.2.returnType)
      (funcMap.length + 1) funcMap availableTypes).1
    .ok (funcMap.filter fun f => f.1 ∉ unsatisfied.map Prod.fst)

def collectSatisfiableTypes (m : VarMaps) : Except Fault Satisfiable :=
  let res := (m .simple).keys.foldl (fun res t => res.add t .simple t) ∅
  match collectStructures weak ts (m .compound).keys res (m .simple).keys.toFinset with
  | .error f => .error f
  | .ok (res, currentTypes) =>
    match calcSatisfiableFunctions ts (m .function).keys currentTypes with
    | .error f => .error f
    | .ok satisfiable => .ok (satisfiable.foldl (fun res f => res.add f.2.returnType .function f.1) res)

/-- A value of the type is at hand for an argument: a simple variable has it, a
compound variable has a member of it, or a function whose parameters are given
returns it. -/
inductive Given (m : VarMaps) : TypeID → Prop
  | simple {t : TypeID} : t ∈ m .simple → Given m t
  | member {c t : TypeID} : c ∈ m .compound → MemberType weak ts c t → Given m t
  | result {s : TypeID} {f : FunctionType} : s ∈ m .function → ts.getFunctionType s = some f →
      (∀ a ∈ f.argTypes, Given m a) → Given m f.returnType

def Handles (m : VarMaps) (t : TypeID) (k : TypeKind) (s : TypeID) : Prop :=
  s ∈ m k ∧ match k with
    | .simple => s = t
    | .compound => s = t ∨ MemberType weak ts s t
    | .function => ∃ f, ts.getFunctionType s = some f ∧ (∀ a ∈ f.argTypes, Given weak ts m a) ∧ f.returnType = t
    | .pointer => False

variable {weak ts} {m : VarMaps}

theorem collectStructures_eq (weak : Bool) {types : List TypeID} (htypes : ∀ c ∈ types, ts.isCompoundType c = true)
    {res : Satisfiable} (hres : res.Sourced) (cur : Finset TypeID) :
    ∃ res' cur', collectStructures weak ts types res cur = .ok (res', cur') ∧ res'.Sourced ∧
      (∀ t k s, s ∈ res'.handlers t k ↔ s ∈ res.handlers t k ∨
        (k = .compound ∧ s ∈ types ∧ (s = t ∨ MemberType weak ts s t))) ∧
      ∀ t, t ∈ cur' ↔ t ∈ cur ∨ ∃ c ∈ types, MemberType weak ts c t := by
  induction types generalizing res cur with
  | nil => exact ⟨res,cur,rfl,hres,by simp,by simp⟩
  | cons c types ih =>
    obtain ⟨mts,hrun,hmts⟩ := getAllTypesFromCompoundType_eq weak (htypes c (List.mem_cons_self ..))
    have hsourced : Satisfiable.Sourced (mts.foldl (fun res m => res.add m .compound c) (res.add c .compound c)) :=
      Satisfiable.Sourced.foldl (f := fun m => (m, TypeKind.compound, c)) hres.add mts
    obtain ⟨res',cur',hrest,hres',hmem,hcur⟩ :=
      ih (fun d hd => htypes d (List.mem_cons_of_mem _ hd)) hsourced (cur ∪ mts.toFinset)
    refine ⟨res',cur',by rw [collectStructures, hrun]; exact hrest,hres',fun t k s => ?_,fun t => ?_⟩
    · have hadd : ∀ (r : Satisfiable) (b : TypeID), s ∈ (r.add b .compound c).handlers t k ↔
          s ∈ r.handlers t k ∨ b = t ∧ .compound = k ∧ c = s := fun r b => Satisfiable.mem_handlers_add
      rw [hmem, VectorMap.foldl_iff (p := fun r : Satisfiable => s ∈ r.handlers t k) hadd, hadd]
      simp only [List.mem_cons]
      grind
    · rw [hcur]
      simp only [Finset.mem_union, List.mem_toFinset, hmts, List.mem_cons, exists_eq_or_imp, or_assoc]

theorem derives_iff_given {cur : Finset TypeID} {funcMap : List (TypeID × FunctionType)}
    (hcur : ∀ t, t ∈ cur ↔ t ∈ m .simple ∨ ∃ c ∈ m .compound, MemberType weak ts c t)
    (hfuncs : ∀ s f, (s, f) ∈ funcMap ↔ s ∈ m .function ∧ ts.getFunctionType s = some f) {t : TypeID} :
    Saturation.Derives (fun f => f.2.argTypes.toFinset) (fun f => f.2.returnType) funcMap cur t ↔
      Given weak ts m t := by
  constructor
  · intro h
    induction h with
    | start ha =>
      rcases (hcur _).mp ha with h | ⟨c,hc,h⟩
      · exact .simple h
      · exact .member hc h
    | @fire r hr _ ih =>
      obtain ⟨hs,hf⟩ := (hfuncs r.1 r.2).mp hr
      exact .result hs hf fun a ha => ih a (List.mem_toFinset.mpr ha)
  · intro h
    induction h with
    | simple h => exact .start ((hcur _).mpr (.inl h))
    | member hc h => exact .start ((hcur _).mpr (.inr ⟨_,hc,h⟩))
    | @result s f hs hf _ ih =>
      exact .fire (r := (s, f)) ((hfuncs s f).mpr ⟨hs,hf⟩) fun b hb => ih b (List.mem_toFinset.mp hb)

theorem functionGraph_eq {l : List TypeID} (hl : ∀ s ∈ l, ∃ f, ts.getFunctionType s = some f) :
    ∃ funcMap, functionGraph ts l = some funcMap ∧ funcMap.map Prod.fst = l ∧
      ∀ s f, (s, f) ∈ funcMap ↔ s ∈ l ∧ ts.getFunctionType s = some f := by
  induction l with
  | nil => exact ⟨[],rfl,rfl,by simp⟩
  | cons t l ih =>
    obtain ⟨funcMap,hrun,hids,hmem⟩ := ih fun s hs => hl s (List.mem_cons_of_mem _ hs)
    obtain ⟨f,hf⟩ := hl t (List.mem_cons_self ..)
    unfold functionGraph at hrun ⊢
    refine ⟨(t, f) :: funcMap,by simp [List.mapM_cons, hf, hrun],by simp [hids],fun s g => ?_⟩
    simp only [List.mem_cons, Prod.mk.injEq, hmem, or_and_right]
    apply or_congr_left
    constructor
    · rintro ⟨rfl,rfl⟩
      exact ⟨rfl,hf⟩
    · rintro ⟨rfl,hg⟩
      rw [hf] at hg
      cases hg
      exact ⟨rfl,rfl⟩

/-- What is left are the functions whose parameters can be derived. -/
theorem calcSatisfiableFunctions_run {l : List TypeID} (hl : ∀ s ∈ l, ∃ f, ts.getFunctionType s = some f)
    (cur : Finset TypeID) : ∃ funcMap fs, functionGraph ts l = some funcMap ∧
      (∀ s f, (s, f) ∈ funcMap ↔ s ∈ l ∧ ts.getFunctionType s = some f) ∧
      calcSatisfiableFunctions ts l cur = .ok fs ∧ ∀ r, r ∈ fs ↔ r ∈ funcMap ∧ ∀ a ∈ r.2.argTypes.toFinset,
        Saturation.Derives (fun f => f.2.argTypes.toFinset) (fun f => f.2.returnType) funcMap cur a := by
  obtain ⟨funcMap,hrun,_,hmem⟩ := functionGraph_eq hl
  unfold calcSatisfiableFunctions
  rw [hrun]
  refine ⟨funcMap,_,rfl,hmem,rfl,fun r => ?_⟩
  rw [List.mem_filter, decide_eq_true_iff]
  apply and_congr_right
  intro hr
  rw [← not_iff_not, not_not, ← Saturation.mem_saturate (fun f => f.2.argTypes.toFinset) (fun f => f.2.returnType) cur
    (Nat.lt_succ_self funcMap.length) hr, List.mem_map]
  constructor
  · rintro ⟨r',hr',hid⟩
    have hsame : r' = r := by
      obtain ⟨_,hf⟩ := (hmem r.1 r.2).mp hr
      obtain ⟨_,hf'⟩ := (hmem r'.1 r'.2).mp (Saturation.saturate_subset hr')
      rw [hid, hf] at hf'
      exact Prod.ext hid (Option.some.inj hf').symm
    exact hsame ▸ hr'
  · exact fun h => ⟨_,h,rfl⟩

theorem calcSatisfiableFunctions_eq (hm : m.Sorted ts) {cur : Finset TypeID}
    (hcur : ∀ t, t ∈ cur ↔ t ∈ m .simple ∨ ∃ c ∈ m .compound, MemberType weak ts c t) :
    ∃ fs, calcSatisfiableFunctions ts (m .function).keys cur = .ok fs ∧ ∀ s f, (s, f) ∈ fs ↔
      s ∈ m .function ∧ ts.getFunctionType s = some f ∧ ∀ a ∈ f.argTypes, Given weak ts m a := by
  have hknown : ∀ s ∈ (m .function).keys, ∃ f, ts.getFunctionType s = some f := by
    intro s hs
    obtain ⟨v,hv,hkind⟩ := hm.function s (Std.TreeMap.mem_keys.mp hs)
    exact isFunctionType_iff.mp (isFunctionType_of_kind hv hkind)
  obtain ⟨funcMap,fs,_,hmem,hrun,hfs⟩ := calcSatisfiableFunctions_run hknown cur
  simp only [Std.TreeMap.mem_keys] at hmem
  refine ⟨fs,hrun,fun s f => ?_⟩
  rw [hfs, hmem, and_assoc]
  simp only [List.mem_toFinset, derives_iff_given hcur hmem]

/-- The generator finds a source of a type exactly where there is one. -/
theorem collectSatisfiableTypes_eq (weak : Bool) (hm : m.Sorted ts) : ∃ sat, collectSatisfiableTypes weak ts m = .ok sat ∧
    sat.Sourced ∧ ∀ t k s, s ∈ sat.handlers t k ↔ Handles weak ts m t k s := by
  have hsimple : ∀ (r : Satisfiable) (b t : TypeID) (k : TypeKind) (s : TypeID),
      s ∈ (r.add b .simple b).handlers t k ↔ s ∈ r.handlers t k ∨ b = t ∧ .simple = k ∧ b = s :=
    fun r b t k s => Satisfiable.mem_handlers_add
  have hfunction : ∀ (r : Satisfiable) (b : TypeID × FunctionType) (t : TypeID) (k : TypeKind) (s : TypeID),
      s ∈ (r.add b.2.returnType .function b.1).handlers t k ↔
        s ∈ r.handlers t k ∨ b.2.returnType = t ∧ .function = k ∧ b.1 = s :=
    fun r b t k s => Satisfiable.mem_handlers_add
  have hcompound : ∀ c ∈ (m .compound).keys, ts.isCompoundType c = true := by
    intro c hc
    obtain ⟨v,hv,hkind⟩ := hm.compound c (Std.TreeMap.mem_keys.mp hc)
    exact isCompoundType_of_kind hv hkind
  have hstart : Satisfiable.Sourced ((m .simple).keys.foldl (fun res t => res.add t .simple t) ∅) :=
    Satisfiable.Sourced.foldl (f := fun t => (t, TypeKind.simple, t)) Satisfiable.sourced_empty _
  obtain ⟨res,cur,hrun₁,hres,hmem₁,hcur⟩ := collectStructures_eq weak hcompound hstart (m .simple).keys.toFinset
  simp only [List.mem_toFinset, Std.TreeMap.mem_keys] at hcur
  obtain ⟨fs,hrun₂,hmem₂⟩ := calcSatisfiableFunctions_eq hm hcur
  unfold collectSatisfiableTypes
  simp only [hrun₁, hrun₂]
  refine ⟨_,rfl,Satisfiable.Sourced.foldl (f := fun f => (f.2.returnType, TypeKind.function, f.1)) hres fs,
    fun t k s => ?_⟩
  rw [VectorMap.foldl_iff (p := fun r : Satisfiable => s ∈ r.handlers t k) (fun r b => hfunction r b t k s), hmem₁,
    VectorMap.foldl_iff (p := fun r : Satisfiable => s ∈ r.handlers t k) (fun r b => hsimple r b t k s)]
  unfold Handles
  have hnone : s ∉ Satisfiable.handlers ∅ t k := by simp [Satisfiable.handlers]
  simp only [hnone, false_or, Std.TreeMap.mem_keys]
  cases k with
  | simple =>
    simp only [reduceCtorEq, false_and, and_false, or_false, true_and, exists_false]
    constructor
    · rintro ⟨c,hc,rfl,rfl⟩
      exact ⟨hc,rfl⟩
    · rintro ⟨hs,rfl⟩
      exact ⟨s,hs,rfl,rfl⟩
  | compound => simp
  | pointer => simp
  | function =>
    simp only [reduceCtorEq, false_and, and_false, or_false, true_and, exists_false, false_or, Prod.exists, hmem₂]
    constructor
    · rintro ⟨_,f,⟨hs,hf,hgiven⟩,hret,rfl⟩
      exact ⟨hs,f,hf,hgiven,hret⟩
    · rintro ⟨hs,f,hf,hgiven,hret⟩
      exact ⟨s,f,⟨hs,hf,hgiven⟩,hret,rfl⟩

/-- The same for what a node can see. -/
theorem collected_satisfiable (weak : Bool) (st : ScopeTree) (ts : TypeSystem) (cur : IRNode) :
    ∃ sat, collectSatisfiableTypes weak ts (collectAllVarDefinitionByType st ts cur) = .ok sat ∧ sat.Sourced ∧
      ∀ t k s, s ∈ sat.handlers t k ↔ Handles weak ts (collectAllVarDefinitionByType st ts cur) t k s :=
  collectSatisfiableTypes_eq weak collect_sorted

end

end PolyGlot
