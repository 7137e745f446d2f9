import PolyGlot.Generator.Typing

set_option autoImplicit false

/-! # The types that can be produced

`collect_satisfiable_types` lists the type of a compound variable and does not
count it among the types at hand when it asks which functions can be called.
-/
namespace PolyGlot

open TypeSystem

section
variable (weak : Bool) (ts : TypeSystem)

inductive Producible (m : VarMaps) : TypeID → Prop
  | simple {t : TypeID} : t ∈ m .simple → Producible m t
  | compound {c : TypeID} : c ∈ m .compound → Producible m c
  | member {c t : TypeID} {types : List TypeID} : c ∈ m .compound →
      getAllTypesFromCompoundType weak ts c = .ok types → t ∈ types → Producible m t
  | result {s : TypeID} {f : FunctionType} : s ∈ m .function → ts.getFunctionType s = some f →
      (∀ a ∈ f.argTypes, Producible m a) → Producible m f.returnType

/-- The keys are the producible types, and the functions under a key are those
that return it and take producible types. -/
structure Exact (m : VarMaps) (sat : Satisfiable) : Prop where
  keys : ∀ t, t ∈ sat ↔ Producible weak ts m t
  calls : ∀ r ∈ sat, ∀ s, s ∈ sat.handlers r .function ↔ s ∈ m .function ∧
    ∃ f, ts.getFunctionType s = some f ∧ f.returnType = r ∧ ∀ a ∈ f.argTypes, Producible weak ts m a

def ArgumentsGiven (m : VarMaps) : Prop :=
  ∀ s f, s ∈ m .function → ts.getFunctionType s = some f →
    (∀ a ∈ f.argTypes, Given weak ts m a ∨ a ∈ m .compound) → ∀ a ∈ f.argTypes, Given weak ts m a

variable {weak ts} {m : VarMaps} {t : TypeID}

theorem producible_of_given (hm : m.Sorted ts) (h : Given weak ts m t ∨ t ∈ m .compound) : Producible weak ts m t := by
  rcases h with h | h
  · induction h with
    | simple h => exact .simple h
    | @member c t hc h =>
      obtain ⟨v,hv,hkind⟩ := hm.compound c hc
      obtain ⟨types,hrun,hmem⟩ := getAllTypesFromCompoundType_eq weak (isCompoundType_of_kind hv hkind)
      exact .member hc hrun ((hmem t).mpr h)
    | result hs hf _ ih => exact .result hs hf ih
  · exact .compound h

theorem producible_iff (hm : m.Sorted ts) (hargs : ArgumentsGiven weak ts m) :
    Producible weak ts m t ↔ Given weak ts m t ∨ t ∈ m .compound := by
  refine ⟨fun h => ?_,producible_of_given hm⟩
  induction h with
  | simple h => exact .inl (.simple h)
  | compound h => exact .inr h
  | @member c t types hc hrun h =>
    obtain ⟨v,hv,hkind⟩ := hm.compound c hc
    obtain ⟨types',hrun',hmem⟩ := getAllTypesFromCompoundType_eq weak (isCompoundType_of_kind hv hkind)
    rw [hrun] at hrun'
    cases hrun'
    exact .inl (.member hc ((hmem t).mp h))
  | @result s f hs hf _ ih => exact .inl (.result hs hf (hargs s f hs hf ih))

theorem mem_iff_handles {sat : Satisfiable} (hsourced : sat.Sourced)
    (hsat : ∀ t k s, s ∈ sat.handlers t k ↔ Handles weak ts m t k s) (t : TypeID) :
    t ∈ sat ↔ Given weak ts m t ∨ t ∈ m .compound := by
  constructor
  · intro h
    obtain ⟨k,s,hs⟩ := hsourced t h
    obtain ⟨hmem,hk⟩ := (hsat t k s).mp hs
    cases k with
    | simple => exact .inl (.simple (hk ▸ hmem))
    | compound => exact hk.elim (fun h => .inr (h ▸ hmem)) fun h => .inl (.member hmem h)
    | function =>
      obtain ⟨f,hf,hargs,rfl⟩ := hk
      exact .inl (.result hmem hf hargs)
    | pointer => exact hk.elim
  · intro h
    rcases h with h | h
    · cases h with
      | simple h => exact Satisfiable.mem_of_handlers ((hsat t .simple t).mpr ⟨h,rfl⟩)
      | member hc h => exact Satisfiable.mem_of_handlers ((hsat t .compound _).mpr ⟨hc,.inr h⟩)
      | result hs hf hargs => exact Satisfiable.mem_of_handlers ((hsat _ .function _).mpr ⟨hs,_,hf,hargs,rfl⟩)
    · exact Satisfiable.mem_of_handlers ((hsat t .compound t).mpr ⟨h,.inl rfl⟩)

end

/-- What the generator finds satisfiable is what can be produced, exactly when
no function waits for a type that only compound variables have. -/
theorem collectSatisfiableTypes_exact_iff (weak : Bool) (st : ScopeTree) (ts : TypeSystem) (cur : IRNode) :
    (∃ sat, collectSatisfiableTypes weak ts (collectAllVarDefinitionByType st ts cur) = .ok sat ∧
      Exact weak ts (collectAllVarDefinitionByType st ts cur) sat) ↔
    ArgumentsGiven weak ts (collectAllVarDefinitionByType st ts cur) := by
  have hm : (collectAllVarDefinitionByType st ts cur).Sorted ts := collect_sorted
  obtain ⟨sat,hrun,hsourced,hsat⟩ := collected_satisfiable weak st ts cur
  constructor
  · rintro ⟨sat',hrun',hkeys,hcalls⟩ s f hs hf hargs a ha
    rw [hrun] at hrun'
    cases hrun'
    have hproducible : ∀ a ∈ f.argTypes, Producible weak ts (collectAllVarDefinitionByType st ts cur) a :=
      fun a ha => producible_of_given hm (hargs a ha)
    have hkey := (hkeys _).mpr (.result hs hf hproducible)
    have hlisted := (hcalls _ hkey s).mpr ⟨hs,f,hf,rfl,hproducible⟩
    obtain ⟨_,f',hf',hgiven,_⟩ := (hsat _ .function s).mp hlisted
    rw [hf] at hf'
    cases hf'
    exact hgiven a ha
  · intro hargs
    refine ⟨sat,hrun,fun t => ?_,fun r _ s => ?_⟩
    · rw [mem_iff_handles hsourced hsat, producible_iff hm hargs]
    · rw [hsat, Handles]
      apply and_congr_right
      intro hs
      constructor
      · rintro ⟨f,hf,hgiven,hr⟩
        exact ⟨f,hf,hr,fun a ha => producible_of_given hm (.inl (hgiven a ha))⟩
      · rintro ⟨f,hf,hr,hproducible⟩
        refine ⟨f,hf,hargs s f hs hf fun a ha => ?_,hr⟩
        exact (producible_iff hm hargs).mp (hproducible a ha)

/-- A variable of class `S` and a function that takes an `S` and returns an `INT`. -/
def classArgumentTypes : TypeSystem :=
  ((TypeSystem.construct (intConfig true) .initial).createCompoundType "S".toList []).createFunctionType
    "f".toList 10 [11] ["p".toList]

def classArgumentScopes : ScopeTree := Generator.globalScope [⟨"a".toList,11,1⟩,⟨"f".toList,12,2⟩]

abbrev classArgumentMaps : VarMaps :=
  collectAllVarDefinitionByType classArgumentScopes classArgumentTypes Generator.useNode

/-- An `INT` can be produced by `f(a)`, and is not listed. -/
theorem classArgument_dropped : Producible true classArgumentTypes classArgumentMaps 10 ∧
    ¬ ∃ sat, collectSatisfiableTypes true classArgumentTypes classArgumentMaps = .ok sat ∧
      Exact true classArgumentTypes classArgumentMaps sat := by
  have hclass : (11 : TypeID) ∈ classArgumentMaps .compound := by decide +kernel
  have hfunction : (12 : TypeID) ∈ classArgumentMaps .function := by decide +kernel
  have hsignature : (classArgumentTypes.getFunctionType 12).map (fun f => (f.argTypes,f.returnType)) = some ([11],10) := by
    decide +kernel
  obtain ⟨f,hf,hparts⟩ := Option.map_eq_some_iff.mp hsignature
  rw [Prod.mk.injEq] at hparts
  have hint : Producible true classArgumentTypes classArgumentMaps 10 := by
    rw [← hparts.2]
    apply Producible.result hfunction hf
    intro a ha
    rw [hparts.1, List.mem_singleton] at ha
    exact ha ▸ .compound hclass
  refine ⟨hint,?_⟩
  rintro ⟨sat,hrun,hkeys,_⟩
  have hlisted : (collectSatisfiableTypes true classArgumentTypes classArgumentMaps).map Std.TreeMap.keys = .ok [11] := by
    decide +kernel
  have hkey : (10 : TypeID) ∈ sat.keys := Std.TreeMap.mem_keys.mpr ((hkeys 10).mpr hint)
  rw [hrun] at hlisted
  rw [Except.ok.inj hlisted] at hkey
  exact absurd hkey (by decide)

end PolyGlot
