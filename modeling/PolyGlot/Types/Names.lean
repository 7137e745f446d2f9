import PolyGlot.Types.Identity
import PolyGlot.Types.TypeSystem

set_option autoImplicit false

/-! # The names of types

A name is looked up in one table after the other. The lookup finds some type of
the name whenever there is one, and no type has the id that says there is none.
-/
namespace PolyGlot

open VectorMap

namespace TypeTables

/-- The names that a lookup can find. -/
def names (t : TypeTables) : List Str := t.entries.flatten.map fun e => e.2.name

theorem mem_entries {t : TypeTables} {e : TypeID × VarType} : e ∈ t.entries.flatten ↔ some e.2 ∈ t.found e.1 := by
  obtain ⟨id,v⟩ := e
  have hwrap : ∀ {α : Type} (m : Std.TreeMap TypeID α) (wrap : α → VarType),
      (id, v) ∈ m.toList.map (fun e => (e.1, wrap e.2)) ↔ m[id]?.map wrap = some v := by
    intro α m wrap
    simp only [List.mem_map, Prod.exists, Prod.mk.injEq, Option.map_eq_some_iff]
    constructor
    · rintro ⟨i,a,hmem,rfl,rfl⟩
      exact ⟨a,Std.TreeMap.mem_toList_iff_getElem?_eq_some.mp hmem,rfl⟩
    · rintro ⟨a,ha,rfl⟩
      exact ⟨id,a,Std.TreeMap.mem_toList_iff_getElem?_eq_some.mpr ha,rfl,rfl⟩
  simp only [entries, found, List.mem_flatten, List.mem_cons, List.not_mem_nil, or_false, exists_eq_or_imp,
    exists_eq_left, hwrap, Std.TreeMap.mem_toList_iff_getElem?_eq_some, eq_comm (a := some v)]

theorem findNamed_some {cfg : Configuration} {s : Str} {table : List (TypeID × VarType)} {id : TypeID}
    (h : findNamed cfg s table = some id) : ∃ v, (id, v) ∈ table ∧ v.name = s := by
  obtain ⟨e,he,rfl⟩ := Option.map_eq_some_iff.mp h
  have hname : e.2.name = s := by simpa using List.find?_some he
  exact ⟨e.2,(cfg.hashOrder_perm _).mem_iff.mp (List.mem_of_find?_eq_some he),hname⟩

theorem findNamed_none {cfg : Configuration} {s : Str} {table : List (TypeID × VarType)}
    (h : findNamed cfg s table = none) : ∀ e ∈ table, e.2.name ≠ s := by
  intro e he
  have hnone := List.find?_eq_none.mp (Option.map_eq_none_iff.mp h) e ((cfg.hashOrder_perm _).mem_iff.mpr he)
  simpa using hnone

theorem getTypeIDByStr_cases (cfg : Configuration) (t : TypeTables) (s : Str) :
    (∃ v, (t.getTypeIDByStr cfg s, v) ∈ t.entries.flatten ∧ v.name = s) ∨
      t.getTypeIDByStr cfg s = SpecialType.kNotExist ∧ s ∉ t.names := by
  unfold getTypeIDByStr
  cases h : t.entries.findSome? (findNamed cfg s) with
  | some id =>
    obtain ⟨table,htable,hfound⟩ := List.exists_of_findSome?_eq_some h
    obtain ⟨v,hmem,hname⟩ := findNamed_some hfound
    exact .inl ⟨v,List.mem_flatten.mpr ⟨table,htable,hmem⟩,hname⟩
  | none =>
    refine .inr ⟨rfl,fun hmem => ?_⟩
    obtain ⟨e,he,hname⟩ := List.mem_map.mp hmem
    obtain ⟨table,htable,hin⟩ := List.mem_flatten.mp he
    exact findNamed_none (List.findSome?_eq_none_iff.mp h table htable) e hin hname

end TypeTables

namespace TypeSystem

variable {ts : TypeSystem} {cfg : Configuration} {id : TypeID} {v : VarType} {s : Str}

theorem found_iff : some v ∈ ts.found id ↔ ts.getTypePtrByID id = some v := by
  rcases TypeTables.found_cases ts.statics_ok ts.own_ok id with ⟨w,_,_,_,h | h⟩ | ⟨c,_,h⟩ | ⟨f,_,h⟩ | h <;>
    rw [(ts.answers id h).1, h] <;> simp [eq_comm]

def NoPointers (ts : TypeSystem) : Prop := ∀ id v, ts.getTypePtrByID id = some v → v.kind ≠ .pointer

theorem noPointers_of_entries (h : ∀ e ∈ ts.entries.flatten, e.2.kind ≠ .pointer) : ts.NoPointers := by
  intro id v hv
  exact h (id, v) (TypeTables.mem_entries.mpr (found_iff.mpr hv))

theorem mem_names : s ∈ ts.names ↔ ∃ id v, ts.getTypePtrByID id = some v ∧ v.name = s := by
  simp only [TypeTables.names, List.mem_map, TypeTables.mem_entries, found_iff, Prod.exists]

theorem getTypePtrByID_pos (h : ts.getTypePtrByID id = some v) : 0 < id := by
  have hmem := found_iff.mpr h
  have hfree : ts.statics.Free id → 0 < id := fun hf => lt_of_lt_of_le (by decide) hf.ge
  simp only [TypeTables.found, List.mem_cons, List.not_mem_nil, or_false, ts.statics_ok.compound,
    ts.statics_ok.function, Option.map_none, reduceCtorEq, false_or] at hmem
  rcases hmem with h | h | h | h
  · exact (ts.statics_ok.bound id v h.symm).1
  · exact hfree (ts.own_ok.simpleVar id v h.symm).1
  · obtain ⟨c,hc,_⟩ := Option.map_eq_some_iff.mp h.symm
    exact hfree (ts.own_ok.compound id c hc).1
  · obtain ⟨f,hf,_⟩ := Option.map_eq_some_iff.mp h.symm
    exact hfree (ts.own_ok.function id f hf).1

theorem getTypePtrByID_kNotExist : ts.getTypePtrByID SpecialType.kNotExist = none := by
  cases h : ts.getTypePtrByID SpecialType.kNotExist with
  | none => rfl
  | some v => exact absurd (getTypePtrByID_pos h) (lt_irrefl _)

/-- A lookup finds a type of the name when there is one. -/
theorem getTypeIDByStr_ne_iff : ts.getTypeIDByStr cfg s ≠ SpecialType.kNotExist ↔ s ∈ ts.names := by
  rcases ts.getTypeIDByStr_cases cfg s with ⟨v,hmem,hname⟩ | ⟨hnone,hno⟩
  · have hget := found_iff.mp (TypeTables.mem_entries.mp hmem)
    refine ⟨fun _ => mem_names.mpr ⟨_,v,hget,hname⟩,fun _ h => ?_⟩
    rw [h, getTypePtrByID_kNotExist] at hget
    cases hget
  · exact ⟨fun h => absurd hnone h,fun h => absurd h hno⟩

theorem getTypePtrByID_isSome_iff :
    (ts.getTypePtrByID (ts.getTypeIDByStr cfg s)).isSome = true ↔ s ∈ ts.names := by
  have hne : ts.getTypeIDByStr cfg s ≠ SpecialType.kNotExist ↔ s ∈ ts.names := getTypeIDByStr_ne_iff
  rw [← hne]
  constructor
  · intro h hnone
    rw [hnone, getTypePtrByID_kNotExist] at h
    cases h
  · intro h
    rcases ts.getTypeIDByStr_cases cfg s with ⟨v,hmem,_⟩ | ⟨hnone,_⟩
    · rw [found_iff.mp (TypeTables.mem_entries.mp hmem)]
      rfl
    · exact absurd hnone h

theorem nextId_ne : ts.statics.nextId ≠ SpecialType.kNotExist := by
  intro h
  have hle := ts.statics_ok.reserved
  rw [h] at hle
  exact absurd hle (by decide)

theorem simple_nextId : ts.statics.simple[ts.statics.nextId]? = none := ts.statics_ok.unused _ le_rfl

theorem getTypePtrByID_nextId : ts.getTypePtrByID ts.statics.nextId = none := by
  unfold TypeTables.getTypePtrByID
  rw [simple_nextId, ts.statics_ok.compound, ts.statics_ok.function, ts.own_ok.simpleVar_next,
    ts.own_ok.compound_next, ts.own_ok.function_next]
  rfl

/-- A new type is found under its id, and the others as before. -/
theorem getTypePtrByID_createFunctionType (name : Str) (returnType : TypeID) (args : List TypeID)
    (argNames : List Str) (id : TypeID) :
    (ts.createFunctionType name returnType args argNames).getTypePtrByID id =
      if ts.statics.nextId = id then some (.function ⟨ts.statics.nextId,name,returnType,argNames,args⟩)
      else ts.getTypePtrByID id := by
  unfold TypeTables.getTypePtrByID
  simp only [createFunctionType, TypeTables.createFunctionType, getElem?_insert_ite]
  by_cases h : ts.statics.nextId = id
  · subst h
    simp only [if_true, Option.map_some]
    rw [simple_nextId, ts.statics_ok.compound, ts.statics_ok.function, ts.own_ok.simpleVar_next,
      ts.own_ok.compound_next]
    rfl
  · simp only [h, if_false]

theorem getTypePtrByID_createCompoundType (name : Str) (members : List (TypeID × Str)) (id : TypeID) :
    (ts.createCompoundType name members).getTypePtrByID id =
      if ts.statics.nextId = id then
        some (.compound ⟨ts.statics.nextId,name,members.foldl (fun m p => m.push p.1 p.2) ∅⟩)
      else ts.getTypePtrByID id := by
  unfold TypeTables.getTypePtrByID
  simp only [createCompoundType, TypeTables.createCompoundType, getElem?_insert_ite]
  by_cases h : ts.statics.nextId = id
  · subst h
    simp only [if_true, Option.map_some]
    rw [simple_nextId, ts.statics_ok.compound, ts.statics_ok.function, ts.own_ok.simpleVar_next]
    rfl
  · simp only [h, if_false]

/-- The names after a creation that changed the answer for one new id. -/
theorem mem_names_of_created {ts' : TypeSystem} {w : VarType}
    (h : ∀ id, ts'.getTypePtrByID id = if ts.statics.nextId = id then some w else ts.getTypePtrByID id) :
    s ∈ ts'.names ↔ s ∈ ts.names ∨ s = w.name := by
  simp only [mem_names, h]
  constructor
  · rintro ⟨id,v,hv,rfl⟩
    split at hv
    · cases hv
      exact .inr rfl
    · exact .inl ⟨id,v,hv,rfl⟩
  · rintro (⟨id,v,hv,rfl⟩ | rfl)
    · have hne : ts.statics.nextId ≠ id := by
        rintro rfl
        rw [getTypePtrByID_nextId] at hv
        cases hv
      exact ⟨id,v,by rw [if_neg hne, hv],rfl⟩
    · exact ⟨ts.statics.nextId,w,if_pos rfl,rfl⟩

theorem mem_names_createFunctionType {name : Str} {returnType : TypeID} {args : List TypeID} {argNames : List Str} :
    s ∈ (ts.createFunctionType name returnType args argNames).names ↔ s ∈ ts.names ∨ s = name :=
  mem_names_of_created (getTypePtrByID_createFunctionType name returnType args argNames)

theorem mem_names_createCompoundType {name : Str} {members : List (TypeID × Str)} :
    s ∈ (ts.createCompoundType name members).names ↔ s ∈ ts.names ∨ s = name :=
  mem_names_of_created (getTypePtrByID_createCompoundType name members)

end TypeSystem

end PolyGlot
