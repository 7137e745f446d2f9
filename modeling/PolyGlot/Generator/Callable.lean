import PolyGlot.Generator.Collect

set_option autoImplicit false

/-! # The functions that can be called

`calc_satisfiable_functions` strikes functions off a map until a pass over it
strikes none. What it returns is a least fixpoint, so the order in which the map
hands out the functions does not matter.
-/
namespace PolyGlot

open TypeSystem

section
variable (ts : TypeSystem) (F : List TypeID) (A : Finset TypeID)

/-- Every function of `F` is in `X` whose parameters are in `A` or are returned by
functions in `X`. -/
def ClosedUnderCalls (X : Set TypeID) : Prop :=
  ∀ s ∈ F, ∀ f, ts.getFunctionType s = some f →
    (∀ a ∈ f.argTypes, a ∈ A ∨ ∃ g ∈ X, ∃ h, ts.getFunctionType g = some h ∧ h.returnType = a) → s ∈ X

def satisfactionLoop (fuel : ℕ) : Option (List (TypeID × FunctionType) × Finset TypeID) :=
  (functionGraph ts F).bind fun funcMap =>
    Saturation.passes (fun f => f.2.argTypes.toFinset) (fun f => f.2.returnType) fuel funcMap A

def functionIds (fs : List (TypeID × FunctionType)) : Set TypeID := {s | s ∈ fs.map Prod.fst}

variable {ts F A}

theorem ClosedUnderCalls.mono {A' : Finset TypeID} {X : Set TypeID} (h : ClosedUnderCalls ts F A' X) (hA : A ⊆ A') :
    ClosedUnderCalls ts F A X := by
  intro s hs f hf hargs
  apply h s hs f hf
  intro a ha
  exact (hargs a ha).imp_left fun h => hA h

theorem closedUnderCalls_congr {F' : List TypeID} (hF : ∀ s, s ∈ F' ↔ s ∈ F) (X : Set TypeID) :
    ClosedUnderCalls ts F' A X ↔ ClosedUnderCalls ts F A X := by
  unfold ClosedUnderCalls
  simp only [hF]

theorem functionIds_isLeast (hF : ∀ s ∈ F, ∃ f, ts.getFunctionType s = some f) (A : Finset TypeID) :
    ∃ fs, calcSatisfiableFunctions ts F A = .ok fs ∧ IsLeast {X | ClosedUnderCalls ts F A X} (functionIds fs) := by
  obtain ⟨funcMap,fs,_,hmem,hrun,hfs⟩ := calcSatisfiableFunctions_run hF A
  refine ⟨fs,hrun,?_⟩
  have hleast := Saturation.derivable_isLeast (fun f : TypeID × FunctionType => f.2.argTypes.toFinset)
    (fun f => f.2.returnType) funcMap A
  have hids : ∀ s, s ∈ functionIds fs ↔ ∃ f, (s, f) ∈ fs := by
    intro s
    simp [functionIds]
  constructor
  · intro s hs f hf hargs
    rw [hids]
    refine ⟨f,(hfs _).mpr (hleast.1 (s, f) ((hmem s f).mpr ⟨hs,hf⟩) fun a ha => ?_)⟩
    rcases hargs a (List.mem_toFinset.mp ha) with hgiven | ⟨g,hg,h,hh,hret⟩
    · exact .inl hgiven
    · obtain ⟨h',hg⟩ := (hids g).mp hg
      obtain ⟨_,hh'⟩ := (hmem g h').mp ((hfs _).mp hg).1
      rw [hh] at hh'
      cases hh'
      exact .inr ⟨(g, h),(hfs _).mp hg,hret⟩
  · intro X hX s hs
    obtain ⟨f,hf⟩ := (hids s).mp hs
    have hclosed : {r : TypeID × FunctionType | r ∈ funcMap ∧ r.1 ∈ X} ∈
        {X : Set (TypeID × FunctionType) | ∀ r ∈ funcMap,
          (∀ b ∈ r.2.argTypes.toFinset, b ∈ A ∨ ∃ r' ∈ X, r'.2.returnType = b) → r ∈ X} := by
      intro r hr hbody
      obtain ⟨hr₁,hr₂⟩ := (hmem r.1 r.2).mp hr
      refine ⟨hr,hX r.1 hr₁ r.2 hr₂ fun a ha => ?_⟩
      rcases hbody a (List.mem_toFinset.mpr ha) with hgiven | ⟨r',⟨hr',hin⟩,hret⟩
      · exact .inl hgiven
      · exact .inr ⟨r'.1,hin,r'.2,((hmem r'.1 r'.2).mp hr').2,hret⟩
    exact (hleast.2 hclosed ((hfs _).mp hf)).2

/-- The loop ends after at most one pass more than there are functions, and the
functions that it leaves are those struck off the result. -/
theorem satisfactionLoop_ends (hF : ∀ s ∈ F, ∃ f, ts.getFunctionType s = some f) (A : Finset TypeID) :
    ∃ left fs, (∀ fuel, F.length < fuel → satisfactionLoop ts F A fuel = some left) ∧
      calcSatisfiableFunctions ts F A = .ok fs ∧ functionIds fs = {s | s ∈ F ∧ s ∉ functionIds left.1} := by
  obtain ⟨funcMap,hgraph,hids,_⟩ := functionGraph_eq hF
  have hlength : funcMap.length = F.length := by rw [← hids, List.length_map]
  unfold satisfactionLoop calcSatisfiableFunctions
  simp only [hgraph, Option.bind_some]
  refine ⟨Saturation.saturate (fun f => f.2.argTypes.toFinset) (fun f => f.2.returnType) (funcMap.length + 1) funcMap A,
    _,fun fuel hfuel => ?_,rfl,?_⟩
  · rw [Saturation.passes_eq (hlength ▸ hfuel),
      Saturation.saturate_stable (hlength ▸ hfuel) (Nat.lt_succ_self funcMap.length)]
  · ext s
    simp only [functionIds, ← hids, Set.mem_ofPred_eq, List.mem_map, List.mem_filter, decide_eq_true_eq]
    constructor
    · rintro ⟨r,⟨hr,hnot⟩,rfl⟩
      exact ⟨⟨r,hr,rfl⟩,hnot⟩
    · rintro ⟨⟨r,hr,rfl⟩,hnot⟩
      exact ⟨r,⟨hr,hnot⟩,rfl⟩

/-- The loop ends, and the result is the least set of functions of `F` that is
closed under calls: it depends on no order and grows with `A`. -/
theorem calcSatisfiableFunctions_least (ts : TypeSystem) (F : List TypeID) (A : Finset TypeID)
    (hF : ∀ s ∈ F, ∃ f, ts.getFunctionType s = some f) :
    ∃ left fs, (∀ fuel, F.length < fuel → satisfactionLoop ts F A fuel = some left) ∧
      calcSatisfiableFunctions ts F A = .ok fs ∧
      functionIds fs = {s | s ∈ F ∧ s ∉ functionIds left.1} ∧
      IsLeast {X | ClosedUnderCalls ts F A X} (functionIds fs) ∧
      (∀ F' : List TypeID, (∀ s, s ∈ F' ↔ s ∈ F) →
        ∃ fs', calcSatisfiableFunctions ts F' A = .ok fs' ∧ functionIds fs' = functionIds fs) ∧
      ∀ A', A ⊆ A' → ∃ fs', calcSatisfiableFunctions ts F A' = .ok fs' ∧ functionIds fs ⊆ functionIds fs' := by
  obtain ⟨left,fs,hloop,hrun,hleft⟩ := satisfactionLoop_ends hF A
  obtain ⟨_,hrun',hleast⟩ := functionIds_isLeast hF A
  rw [hrun] at hrun'
  cases hrun'
  refine ⟨left,fs,hloop,hrun,hleft,hleast,?_,?_⟩
  · intro F' hF'
    obtain ⟨fs',hrun',hleast'⟩ := functionIds_isLeast (fun s hs => hF s ((hF' s).mp hs)) A
    simp only [closedUnderCalls_congr hF'] at hleast'
    exact ⟨fs',hrun',hleast'.unique hleast⟩
  · intro A' hA
    obtain ⟨fs',hrun',hleast'⟩ := functionIds_isLeast hF A'
    exact ⟨fs',hrun',hleast.2 (hleast'.1.mono hA)⟩

end

/-- Two functions that need each other, one that needs a type nobody returns, and
an `INT` to begin with. -/
def mutualTypes : TypeSystem :=
  ((((TypeSystem.construct (intConfig true) .initial).createCompoundType "S".toList []).createFunctionType
    "f".toList 11 [10] ["p".toList]).createFunctionType "g".toList 10 [11] ["q".toList]).createFunctionType
    "h".toList 10 [12] ["r".toList]

theorem mutualCalls : ∃ left fs, (∀ fuel, 3 < fuel → satisfactionLoop mutualTypes [12,13,14] {10} fuel = some left) ∧
    calcSatisfiableFunctions mutualTypes [12,13,14] {10} = .ok fs ∧
    IsLeast {X | ClosedUnderCalls mutualTypes [12,13,14] {10} X} (functionIds fs) := by
  have hknown : ∀ s ∈ [(12 : TypeID),13,14], (mutualTypes.getFunctionType s).isSome = true := by decide +kernel
  obtain ⟨left,fs,hloop,hrun,_,hleast,_⟩ := calcSatisfiableFunctions_least mutualTypes [12,13,14] {10}
    fun s hs => Option.isSome_iff_exists.mp (hknown s hs)
  exact ⟨left,fs,hloop,hrun,hleast⟩

end PolyGlot
