import PolyGlot.Types.Kinds
import PolyGlot.Support.Search

set_option autoImplicit false

/-! # The type system

An object with the static members it sees, in a state that a run can reach: the
tables agree about the kinds of types.
-/
namespace PolyGlot

structure TypeSystem extends TypeTables where
  statics_ok : statics.Ok
  own_ok : own.Ok statics

namespace TypeSystem

def construct (cfg : Configuration) (before : TypeSystem) : TypeSystem where
  toTypeTables := TypeTables.construct cfg before.statics
  statics_ok := (initBasicTypes_ok cfg before.statics_ok).1
  own_ok := TypeMembers.empty_ok

def initial : TypeSystem where
  statics := .initial
  own := ⟨∅,∅,∅,∅⟩
  statics_ok := TypeStatics.initial_ok
  own_ok := TypeMembers.empty_ok

def createFunctionType (ts : TypeSystem) (functionName : Str) (returnType : TypeID) (args : List TypeID)
    (argNames : List Str) : TypeSystem where
  toTypeTables := ts.toTypeTables.createFunctionType functionName returnType args argNames
  statics_ok := ts.statics_ok.skip
  own_ok := ts.own_ok.addFunction ts.statics_ok rfl

def createCompoundType (ts : TypeSystem) (structureName : Str) (members : List (TypeID × Str)) : TypeSystem where
  toTypeTables := ts.toTypeTables.createCompoundType structureName members
  statics_ok := ts.statics_ok.skip
  own_ok := ts.own_ok.addCompound ts.statics_ok rfl

section Lookups
variable {ts : TypeSystem} {id : TypeID} {v : VarType}

theorem agree (ts : TypeSystem) (id : TypeID) : ts.KindsAgree id := TypeTables.kindsAgree ts.statics_ok ts.own_ok id

theorem isCompoundType_iff : ts.isCompoundType id = true ↔ ∃ ct, ts.getCompoundType id = some ct := by
  simp only [TypeTables.isCompoundType, TypeTables.getCompoundType, Std.TreeMap.contains_eq_isSome_getElem?,
    Bool.or_eq_true]
  cases ts.own.compound[id]? <;> cases ts.statics.compound[id]? <;> simp

theorem isFunctionType_iff : ts.isFunctionType id = true ↔ ∃ f, ts.getFunctionType id = some f := by
  simp only [TypeTables.isFunctionType, TypeTables.getFunctionType, Std.TreeMap.contains_eq_isSome_getElem?,
    Bool.or_eq_true]
  cases ts.own.function[id]? <;> cases ts.statics.function[id]? <;> simp

theorem isCompoundType_of_kind (h : ts.getTypePtrByID id = some v) (hkind : v.kind = .compound) :
    ts.isCompoundType id = true := (ts.agree id).isCompoundType.mpr ⟨v,h,hkind⟩

theorem isFunctionType_of_kind (h : ts.getTypePtrByID id = some v) (hkind : v.kind = .function) :
    ts.isFunctionType id = true := (ts.agree id).isFunctionType.mpr ⟨v,h,hkind⟩

theorem getTypePtrByID_of_compound {ct : CompoundType} (h : ts.getCompoundType id = some ct) :
    ts.getTypePtrByID id = some (.compound ct) := by
  obtain ⟨v,hv,hkind⟩ := (ts.agree id).isCompoundType.mp (isCompoundType_iff.mpr ⟨ct,h⟩)
  have hget := (ts.agree id).getCompoundType v hv hkind
  rw [h] at hget
  rw [hv, ← hget]
  rfl

theorem getTypePtrByID_of_function {f : FunctionType} (h : ts.getFunctionType id = some f) :
    ts.getTypePtrByID id = some (.function f) := by
  obtain ⟨v,hv,hkind⟩ := (ts.agree id).isFunctionType.mp (isFunctionType_iff.mpr ⟨f,h⟩)
  have hget := (ts.agree id).getFunctionType v hv hkind
  rw [h] at hget
  rw [hv, ← hget]
  rfl

theorem getFunctionType_of_compound (h : ts.isCompoundType id = true) : ts.getFunctionType id = none := by
  obtain ⟨ct,hct⟩ := isCompoundType_iff.mp h
  cases hf : ts.getFunctionType id with
  | none => rfl
  | some f =>
    have hsame := getTypePtrByID_of_function hf
    rw [getTypePtrByID_of_compound hct] at hsame
    cases hsame

theorem getFunctionType_typeId {f : FunctionType} (h : ts.getFunctionType id = some f) : f.typeId = id := by
  have hget : ts.own.function[id]? = some f := by
    simpa [TypeTables.getFunctionType, ts.statics_ok.function] using h
  exact (ts.own_ok.function id f hget).2.1

/-- The static tables hold no type of its own kind under the id of a compound type. -/
theorem isBuiltinType_of_compound (h : ts.isCompoundType id = true) : ts.isBuiltinType id = false := by
  obtain ⟨ct,hct⟩ := isCompoundType_iff.mp h
  have hget : ts.own.compound[id]? = some ct := by
    simpa [TypeTables.getCompoundType, ts.statics_ok.compound] using hct
  have hfree := (ts.own_ok.compound id ct hget).1.simple
  simp [TypeTables.isBuiltinType, Std.TreeMap.contains_eq_isSome_getElem?, hfree, ts.statics_ok.compound,
    ts.statics_ok.function]

def MembersNamed (ts : TypeSystem) : Prop := ∀ c ct, ts.getCompoundType c = some ct → ct.members.Filled

end Lookups

section AllTypes
variable (weak : Bool) (ts : TypeSystem)

def ownTypes (memberType : TypeID) : List TypeID :=
  if ts.isCompoundType memberType then [memberType]
  else match ts.getFunctionType memberType with
    | some pfunc => if weak then [pfunc.returnType, memberType] else []
    | none => if ts.isBasicType memberType || weak then [memberType] else []

def allTypesOfMembers (search : TypeID → Finset TypeID → Except Fault (List TypeID × Finset TypeID)) :
    List TypeID → Finset TypeID → Except Fault (List TypeID × Finset TypeID)
  | [], visit => .ok ([], visit)
  | m :: ms, visit =>
    match if ts.isCompoundType m then search m visit else .ok ([], visit) with
    | .error f => .error f
    | .ok (sub, visit) =>
      match allTypesOfMembers search ms visit with
      | .error f => .error f
      | .ok (rest, visit) => .ok (ts.ownTypes weak m ++ sub ++ rest, visit)

def getAllTypesRec : ℕ → TypeID → Finset TypeID → Except Fault (List TypeID × Finset TypeID)
  | 0, _, _ => .error .outOfFuel
  | fuel + 1, compoundType, visit =>
    if compoundType ∈ visit then .ok ([], visit)
    else match ts.getCompoundType compoundType with
      | none => .error .nullDeref
      | some c => allTypesOfMembers weak ts (getAllTypesRec fuel) c.memberTypes (insert compoundType visit)

/-- `get_all_types_from_compound_type`, with nothing visited. The set it returns is
a list here, in which a type may come twice. -/
def getAllTypesFromCompoundType (compoundType : TypeID) : Except Fault (List TypeID) :=
  (getAllTypesRec weak ts (ts.own.compound.size + ts.statics.compound.size + 1) compoundType ∅).map Prod.fst

def compoundMembers (c : TypeID) : List TypeID :=
  match ts.getCompoundType c with
  | none => []
  | some c => c.memberTypes.filter ts.isCompoundType

/-- A member of `c` itself has the type `t`, or calls to a value of it. -/
def Offers (c t : TypeID) : Prop := ∃ ct, ts.getCompoundType c = some ct ∧ ∃ m ∈ ct.memberTypes, t ∈ ts.ownTypes weak m

def MemberType (c t : TypeID) : Prop := ∃ d, Search.Reaches ts.compoundMembers c d ∧ Offers weak ts d t

def ids : Finset TypeID := (ts.own.compound.keys ++ ts.statics.compound.keys).toFinset

variable {weak ts}

theorem ownTypes_strong {k t : TypeID} (h : t ∈ ts.ownTypes weak k) : t ∈ ts.ownTypes true k := by
  unfold ownTypes at h ⊢
  by_cases hc : ts.isCompoundType k = true
  · simpa [hc] using h
  · cases hf : ts.getFunctionType k with
    | none =>
      simp only [hc, hf, Bool.false_eq_true, if_false] at h ⊢
      split at h
      · simpa using h
      · simp at h
    | some f =>
      simp only [hc, hf, Bool.false_eq_true, if_false] at h ⊢
      split at h
      · simpa using h
      · simp at h

theorem MemberType.strong {c t : TypeID} (h : MemberType weak ts c t) : MemberType true ts c t := by
  obtain ⟨d,hreach,ct,hct,k,hk,hown⟩ := h
  exact ⟨d,hreach,ct,hct,k,hk,ownTypes_strong hown⟩

theorem card_ids : ts.ids.card ≤ ts.own.compound.size + ts.statics.compound.size := by
  calc ts.ids.card ≤ (ts.own.compound.keys ++ ts.statics.compound.keys).length := List.toFinset_card_le _
    _ = ts.own.compound.size + ts.statics.compound.size := by
      rw [List.length_append, Std.TreeMap.length_keys, Std.TreeMap.length_keys]

theorem mem_ids {c : TypeID} (h : ts.isCompoundType c = true) : c ∈ ts.ids := by
  rw [ids, List.mem_toFinset, List.mem_append, Std.TreeMap.mem_keys, Std.TreeMap.mem_keys]
  simpa only [TypeTables.isCompoundType, Bool.or_eq_true, Std.TreeMap.contains_iff_mem, or_comm] using h

def SearchFinds (weak : Bool) (ts : TypeSystem) (todo : List TypeID) (own : TypeID → Prop) (visit : Finset TypeID)
    (run : Except Fault (List TypeID × Finset TypeID)) : Prop :=
  ∃ res visit', run = .ok (res, visit') ∧ Search.Visits ts.compoundMembers todo visit visit' ∧
    ∀ t, t ∈ res ↔ own t ∨ ∃ d ∈ visit', d ∉ visit ∧ Offers weak ts d t

theorem allTypesOfMembers_finds {fuel : ℕ}
    {search : TypeID → Finset TypeID → Except Fault (List TypeID × Finset TypeID)}
    (ih : ∀ c visit, ts.isCompoundType c = true → (ts.ids \ visit).card < fuel →
      SearchFinds weak ts [c] (fun _ => False) visit (search c visit))
    (ms : List TypeID) (visit : Finset TypeID) (hfuel : (ts.ids \ visit).card < fuel) :
    SearchFinds weak ts (ms.filter ts.isCompoundType) (fun t => ∃ m ∈ ms, t ∈ ts.ownTypes weak m) visit
      (allTypesOfMembers weak ts search ms visit) := by
  induction ms generalizing visit with
  | nil =>
    refine ⟨[],visit,rfl,.nil,fun t => ?_⟩
    simp only [List.not_mem_nil, false_and, exists_false, false_or, false_iff]
    rintro ⟨d,hd,hnot,_⟩
    exact hnot hd
  | cons m ms ihs =>
    have hsub : ∃ sub visit₁, (if ts.isCompoundType m then search m visit else .ok ([], visit)) = .ok (sub, visit₁) ∧
        Search.Visits ts.compoundMembers ([m].filter ts.isCompoundType) visit visit₁ ∧
        ∀ t, t ∈ sub ↔ ∃ d ∈ visit₁, d ∉ visit ∧ Offers weak ts d t := by
      by_cases hm : ts.isCompoundType m = true
      · obtain ⟨sub,visit₁,hrun,hvisits,hmem⟩ := ih m visit hm hfuel
        simp only [false_or] at hmem
        exact ⟨sub,visit₁,by rw [if_pos hm, hrun],by rwa [List.filter_cons_of_pos hm],hmem⟩
      · refine ⟨[],visit,if_neg hm,by rw [List.filter_cons_of_neg hm]; exact .nil,fun t => ?_⟩
        simp only [List.not_mem_nil, false_iff]
        rintro ⟨d,hd,hnot,_⟩
        exact hnot hd
    obtain ⟨sub,visit₁,hrun₁,hvisits₁,hmem₁⟩ := hsub
    obtain ⟨rest,visit₂,hrun₂,hvisits₂,hmem₂⟩ :=
      ihs visit₁ (lt_of_le_of_lt (Search.card_unvisited_le hvisits₁.subset) hfuel)
    refine ⟨ts.ownTypes weak m ++ sub ++ rest,visit₂,?_,?_,fun t => ?_⟩
    · rw [allTypesOfMembers, hrun₁]
      simp only [hrun₂]
    · rw [← List.singleton_append, List.filter_append]
      exact hvisits₁.append hvisits₂
    · have h₁ := hvisits₁.subset
      have h₂ := hvisits₂.subset
      simp only [List.mem_append, hmem₁, hmem₂, List.mem_cons]
      constructor
      · rintro ((h | ⟨d,hd,hnot,ho⟩) | ⟨m',hm',h⟩ | ⟨d,hd,hnot,ho⟩)
        · exact .inl ⟨m,.inl rfl,h⟩
        · exact .inr ⟨d,h₂ hd,hnot,ho⟩
        · exact .inl ⟨m',.inr hm',h⟩
        · exact .inr ⟨d,hd,fun hv => hnot (h₁ hv),ho⟩
      · rintro (⟨m',rfl | hm',h⟩ | ⟨d,hd,hnot,ho⟩)
        · exact .inl (.inl h)
        · exact .inr (.inl ⟨m',hm',h⟩)
        · by_cases hd₁ : d ∈ visit₁
          · exact .inl (.inr ⟨d,hd₁,hnot,ho⟩)
          · exact .inr (.inr ⟨d,hd,hd₁,ho⟩)

theorem getAllTypesRec_finds {fuel : ℕ} {c : TypeID} {visit : Finset TypeID} (hc : ts.isCompoundType c = true)
    (hfuel : (ts.ids \ visit).card < fuel) :
    SearchFinds weak ts [c] (fun _ => False) visit (getAllTypesRec weak ts fuel c visit) := by
  induction fuel generalizing c visit with
  | zero => omega
  | succ fuel ih =>
    obtain ⟨ct,hct⟩ := isCompoundType_iff.mp hc
    unfold getAllTypesRec
    by_cases hv : c ∈ visit
    · refine ⟨[],visit,if_pos hv,.seen hv .nil,fun t => ?_⟩
      simp only [List.not_mem_nil, false_or, false_iff]
      rintro ⟨d,hd,hnot,_⟩
      exact hnot hd
    · have hmem := mem_ids hc
      have hless := Search.card_unvisited_insert hmem hv
      obtain ⟨res,visit',hrun,hvisits,hres⟩ :=
        allTypesOfMembers_finds (fun c visit => ih) ct.memberTypes (insert c visit) (by omega)
      refine ⟨res,visit',by rw [if_neg hv, hct]; exact hrun,.enter hv ?_ .nil,fun t => ?_⟩
      · rw [compoundMembers, hct]
        exact hvisits
      · rw [hres t, false_or]
        constructor
        · rintro (⟨m,hm,h⟩ | ⟨d,hd,hnot,ho⟩)
          · exact ⟨c,hvisits.subset (Finset.mem_insert_self ..),hv,ct,hct,m,hm,h⟩
          · exact ⟨d,hd,fun h => hnot (Finset.mem_insert_of_mem h),ho⟩
        · rintro ⟨d,hd,hnot,ho⟩
          by_cases hdc : d = c
          · subst hdc
            obtain ⟨ct',hct',m,hm,h⟩ := ho
            rw [hct] at hct'
            cases hct'
            exact .inl ⟨m,hm,h⟩
          · exact .inr ⟨d,hd,by simp [hdc, hnot],ho⟩

/-- From a compound type the search returns, with the types of its members at any
depth. -/
theorem getAllTypesFromCompoundType_eq (weak : Bool) {c : TypeID} (hc : ts.isCompoundType c = true) :
    ∃ res, getAllTypesFromCompoundType weak ts c = .ok res ∧ ∀ t, t ∈ res ↔ MemberType weak ts c t := by
  have hfuel : (ts.ids \ ∅).card < ts.own.compound.size + ts.statics.compound.size + 1 := by
    rw [Finset.sdiff_empty]
    exact Nat.lt_succ_of_le card_ids
  have hfinds : SearchFinds weak ts [c] (fun _ => False) ∅ (getAllTypesRec weak ts _ c ∅) :=
    getAllTypesRec_finds hc hfuel
  obtain ⟨res,visit',hrun,hvisits,hres⟩ := hfinds
  refine ⟨res,by rw [getAllTypesFromCompoundType, hrun]; rfl,fun t => ?_⟩
  rw [hres t, false_or, MemberType]
  constructor
  · rintro ⟨d,hd,_,ho⟩
    exact ⟨d,hvisits.mem_iff.mp hd,ho⟩
  · rintro ⟨d,hd,ho⟩
    exact ⟨d,hvisits.mem_iff.mpr hd,Finset.notMem_empty _,ho⟩

end AllTypes

end TypeSystem

end PolyGlot
