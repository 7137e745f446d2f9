import PolyGlot.Generator.Members

set_option autoImplicit false

/-! # When the generator cannot fail

`GenerateExpression` returns on every sequence of random values exactly when no
type that is neither a compound nor a function type can be chosen, and no
variable without a name can be the whole of the expression.
-/
namespace PolyGlot

namespace Generator

open Prog TypeSystem

section Total
variable {n : ℕ} {ts : TypeSystem} {core : TypeID → Gen Str} (hcore : ∀ k, Ensures (AtLeast n) (core k) fun _ => True)
include hcore

theorem functionCallGenHandler_ensures {functionMap : VectorMap TypeID Str} (hne : functionMap.size ≠ 0)
    (hfunctions : ∀ s ∈ functionMap, ∃ f, ts.getFunctionType s = some f) :
    Ensures (AtLeast n) (functionCallGenHandler ts core functionMap) (· ≠ []) :=
  (functionCallGenHandler_ensuresOr (fun k => (hcore k).orFails) hne hfunctions).ensures

theorem getClassMemberByType_ensures (hnames : ts.MembersNamed) {c targetType : TypeID}
    (hc : ts.isCompoundType c = true) : Ensures (AtLeast n) (getClassMemberByType ts core c targetType) fun res =>
      res ≠ [] ↔ MemberType true ts c targetType :=
  (getClassMemberByType_ensuresOr (fun k => (hcore k).orFails) hnames hc).ensures

end Total

def OnlyComposed (weak : Bool) (ts : TypeSystem) (m : VarMaps) : Prop :=
  ∀ t k s, Handles weak ts m t k s → ts.isCompoundType t = true ∨ ts.isFunctionType t = true

/-- A compound variable has a name, or a way through its members leads back to its
type. -/
def NamedOrCyclic (ts : TypeSystem) (m : VarMaps) : Prop :=
  ∀ c, [] ∈ (m .compound).vals c → MemberType true ts c c

section Core
variable {n : ℕ} {weak : Bool} {ts : TypeSystem} {m : VarMaps} {sat : Satisfiable} {core : TypeID → Gen Str}

theorem structureMemberGenHandler_ensures (hcore : ∀ k, Ensures (AtLeast n) (core k) fun _ => True)
    (hnames : ts.MembersNamed) (hsorted : m.Sorted ts) (hsat : ∀ t k s, s ∈ sat.handlers t k ↔ Handles weak ts m t k s)
    {type : TypeID} (hne : (usable m sat type .compound).size ≠ 0) :
    Ensures (AtLeast n) (structureMemberGenHandler weak ts core (usable m sat type .compound) type) fun res =>
      NamedOrCyclic ts m → res ≠ [] := by
  unfold structureMemberGenHandler
  apply (randomPick_ensures (VectorMap.toList_ne_nil hne)).bind
  intro compound hcompound
  obtain ⟨hmem,hhandles⟩ := VectorMap.mem_restrict.mp (VectorMap.mem_of_entry hcompound)
  obtain ⟨v,hv,hkind⟩ := hsorted.compound compound.1 hmem
  have hc := isCompoundType_of_kind hv hkind
  have hfilled : compound.2 ≠ [] := by
    intro hempty
    exact (hsorted.filled .compound).restrict compound.1 (hempty ▸ VectorMap.mem_entries_iff.mp hcompound)
  have hvals : compound.2 = (m .compound).vals compound.1 :=
    (VectorMap.vals_of_entry (VectorMap.mem_entries_restrict.mp hcompound).2).symm
  apply (Ensures.assertThat hfilled).bind
  intro _ _
  apply (randomPick_ensures hfilled).bind
  intro x hx
  apply (getClassMemberByType_ensures hcore hnames hc).bind
  intro res hres
  apply Ensures.ite
  · intro hnone
    -- the handler was chosen for the type, and no way leads to it: it is the type of the variable
    have hself : type = compound.1 := by
      rcases ((hsat type .compound compound.1).mp hhandles).2 with h | h
      · exact h.symm
      · exact absurd hnone (hres.mpr h.strong)
    apply (Ensures.assertThat hself).bind
    intro _ _
    rw [wholeVariable_eq hc]
    apply Ensures.pure
    intro hnamed hempty
    have hback : MemberType true ts compound.1 type := hself ▸ hnamed compound.1 (hvals ▸ hempty ▸ hx)
    exact absurd hnone (hres.mpr hback)
  · intro hsome
    exact Ensures.pure (by simp [hsome])

theorem weights_expression {s : GenState} {type : TypeID} (h : ts.isCompoundType type = true ∨ ts.isFunctionType type = true) :
    (weights ts m sat s type).expression = 0 := by
  have hsize : ∀ k, expressionSize ts type k = 0 := fun k => if_pos h.symm
  simp [weights, hsize]

/-- A weight is only there when some variable is usable. -/
theorem size_ne_zero_of_function {s : GenState} {type : TypeID} (h : 0 < (weights ts m sat s type).function) :
    (usable m sat type .function).size ≠ 0 := by
  intro hzero
  simp [weights, hzero] at h

theorem size_ne_zero_of_compound {s : GenState} {type : TypeID} (h : 0 < (weights ts m sat s type).compound) :
    (usable m sat type .compound).size ≠ 0 := by
  intro hzero
  simp [weights, hzero] at h

theorem size_ne_zero_of_simple {s : GenState} {type : TypeID} (h : 0 < (weights ts m sat s type).simple) :
    (usable m sat type .simple).size ≠ 0 := by
  intro hzero
  simp [weights, hzero] at h

theorem not_composed_of_simple (hsorted : m.Sorted ts) {type : TypeID} (ht : type ∈ m .simple) :
    ¬ (ts.isCompoundType type = true ∨ ts.isFunctionType type = true) := by
  obtain ⟨v,hv,hkind⟩ := hsorted.kind .simple type ht
  rw [(ts.agree type).isCompoundType, (ts.agree type).isFunctionType]
  rintro (⟨w,hw,hkind'⟩ | ⟨w,hw,hkind'⟩) <;>
  · rw [hv] at hw
    cases hw
    rw [hkind'] at hkind
    simp [collectedAs] at hkind

theorem makeValue_ensures (hcore : ∀ k, Ensures (AtLeast n) (core k) fun _ => True) (hnames : ts.MembersNamed)
    (hsorted : m.Sorted ts) (hsat : ∀ t k s, s ∈ sat.handlers t k ↔ Handles weak ts m t k s) {type : TypeID}
    (htype : ts.isCompoundType type = true ∨ ts.isFunctionType type = true) :
    Ensures (AtLeast n) (makeValue weak ts m sat core type) fun res => NamedOrCyclic ts m → res ≠ [] := by
  unfold makeValue
  apply Ensures.ite
  · intro _
    exact genRandomNumString_ensures.mono fun _ h _ => h
  · intro _
    apply Ensures.get_bind
    intro s _
    apply Ensures.ite
    · intro _
      exact genRandomNumString_ensures.mono fun _ h _ => h
    · intro htotal
      apply (getRandInt_ensures htotal).bind
      intro choice hchoice
      rw [Weights.total] at hchoice
      apply Ensures.ite
      · intro h
        rw [weights_expression htype] at h
        omega
      · intro _
        apply Ensures.ite
        · intro h
          have hsize := size_ne_zero_of_function (Nat.zero_lt_of_lt h)
          apply (functionCallGenHandler_ensures hcore hsize ?_).mono fun _ h _ => h
          intro k hk
          obtain ⟨v,hv,hkind⟩ := hsorted.function k (VectorMap.mem_restrict.mp hk).1
          exact isFunctionType_iff.mp (isFunctionType_of_kind hv hkind)
        · intro hf
          apply Ensures.ite
          · intro h
            exact structureMemberGenHandler_ensures hcore hnames hsorted hsat (size_ne_zero_of_compound (Nat.zero_lt_of_lt h))
          · intro hc
            rw [weights_expression htype] at hf hc
            have hsimple : 0 < (weights ts m sat s type).simple := by omega
            obtain ⟨k,hk⟩ := VectorMap.size_ne_zero_iff.mp (size_ne_zero_of_simple hsimple)
            obtain ⟨hmem,hhandles⟩ := VectorMap.mem_restrict.mp hk
            have hself : k = type := ((hsat type .simple k).mp hhandles).2
            exact absurd htype (not_composed_of_simple hsorted (hself ▸ hmem))

theorem pickType_ensures (type : TypeID) : Ensures (AtLeast n) (pickType ts sat type) fun _ => True := by
  unfold pickType
  apply Ensures.ite
  · intro h
    apply (randomPick_ensures (VectorMap.toList_ne_nil h.2)).bind
    intro entry _
    apply Ensures.ite
    · intro hf
      apply (getRandInt_ensures (by decide)).bind
      intro coin _
      apply Ensures.ite
      · intro _
        exact Ensures.pure True.intro
      · intro _
        obtain ⟨f,hf⟩ := isFunctionType_iff.mp hf
        rw [hf]
        exact Ensures.pure True.intro
    · intro _
      exact Ensures.pure True.intro
  · intro _
    exact Ensures.pure True.intro

theorem toList_pointer (hpointers : ts.NoPointers) (hsorted : m.Sorted ts) : (m .pointer).toList = [] := by
  by_contra hne
  obtain ⟨e,he⟩ := List.exists_mem_of_ne_nil _ hne
  obtain ⟨v,hv,hkind⟩ := hsorted.kind .pointer e.1 (VectorMap.mem_of_entry he)
  have hnot := hpointers e.1 v hv
  cases hv' : v.kind <;> simp_all [collectedAs]

theorem updatePointerVar_eq (hpointers : ts.NoPointers) (hsorted : m.Sorted ts) : updatePointerVar m = pure () := by
  rw [updatePointerVar, toList_pointer hpointers hsorted]

/-- Fewer than 52 values are begun before the counter ends it, so the fuel lasts. -/
theorem generateExpressionByTypeCore_ensures (hpointers : ts.NoPointers) (hnames : ts.MembersNamed)
    (hsorted : m.Sorted ts) (hsat : ∀ t k s, s ∈ sat.handlers t k ↔ Handles weak ts m t k s) (hsourced : sat.Sourced)
    (honly : OnlyComposed weak ts m) {fuel : ℕ} (hfuel : n + fuel = 52) (hpos : 0 < fuel) (type : TypeID) :
    Ensures (AtLeast n) (generateExpressionByTypeCore weak ts m sat fuel type) fun res =>
      NamedOrCyclic ts m → res ≠ [] := by
  induction fuel generalizing n type with
  | zero => omega
  | succ fuel ih =>
    unfold generateExpressionByTypeCore
    apply Ensures.get_bind
    intro s hs
    apply Ensures.ite
    · intro _
      exact genRandomNumString_ensures.mono fun _ h _ => h
    · intro hless
      rw [AtLeast] at hs
      have hcore : ∀ k, Ensures (AtLeast (n + 1)) (generateExpressionByTypeCore weak ts m sat fuel k) fun _ => True :=
        fun k => (ih (by omega) (by omega) k).mono fun _ _ => True.intro
      apply Ensures.modify_bind (J := AtLeast (n + 1))
      · exact fun s hs => Nat.succ_le_succ hs
      · rw [updatePointerVar_eq hpointers hsorted]
        apply (Ensures.onlyIf fun _ => Ensures.pure True.intro).bind
        intro _ _
        apply (pickType_ensures type).bind
        intro t _
        apply Ensures.ite
        · intro ht
          obtain ⟨k,source,hsource⟩ := hsourced t ht
          exact makeValue_ensures hcore hnames hsorted hsat (honly t k source ((hsat t k source).mp hsource))
        · intro _
          exact genRandomNumString_ensures.mono fun _ h _ => h
      · exact fun s hs => (Nat.le_succ n).trans hs

theorem randomPick_run {α : Type} {l : List α} {s : GenState} {a : α} (h : l[s.rand.head]? = some a) :
    randomPick l s = .ok (a, { s with rand := s.rand.tail }) := by
  obtain ⟨hless,_⟩ := List.getElem?_eq_some_iff.mp h
  rw [randomPick, Nat.mod_eq_of_lt hless, h]

theorem generateExpressionByTypeCore_pick (hpointers : ts.NoPointers) (hsorted : m.Sorted ts) {rand : Rand}
    {entry : TypeID × Handlers} (hentry : sat.toList[rand.head]? = some entry)
    (hfunction : ts.isFunctionType entry.1 = false) (hmem : entry.1 ∈ sat) {fuel : ℕ} :
    generateExpressionByTypeCore weak ts m sat (fuel + 1) SpecialType.kAllTypes ⟨rand,0,0⟩ =
      makeValue weak ts m sat (generateExpressionByTypeCore weak ts m sat fuel) entry.1 ⟨rand.tail,1,0⟩ := by
  have hsize : sat.size ≠ 0 := VectorMap.size_ne_zero_iff.mpr ⟨entry.1,hmem⟩
  have hpick : pickType ts sat SpecialType.kAllTypes ⟨rand,1,0⟩ = .ok (entry.1, ⟨rand.tail,1,0⟩) := by
    rw [pickType, if_pos ⟨rfl,hsize⟩, run_bind, randomPick_run (s := ⟨rand,1,0⟩) hentry]
    simp [hfunction]
    rfl
  have honly : onlyIf (weak = false) (updatePointerVar m) = pure () := by
    rw [updatePointerVar_eq hpointers hsorted, onlyIf, ite_self]
  rw [generateExpressionByTypeCore, run_get_bind, if_neg (by simp), run_modify_bind, honly, pure_bind, run_bind, hpick]
  simp only [if_pos hmem]

theorem total_ne_zero (ts : TypeSystem) {s : GenState} {type : TypeID} (hcounter : s.functionGenCounter = 0) {k : TypeKind}
    (hk : k ≠ .pointer) (husable : (usable m sat type k).size ≠ 0) :
    (usable m sat type .function).size + (usable m sat type .compound).size + (usable m sat type .simple).size ≠ 0 ∧
      (weights ts m sat s type).total ≠ 0 := by
  have hsimple : (usable m sat type .simple).size <<< 6 ≤ (weights ts m sat s type).simple := by
    simp only [weights]
    split
    · exact Nat.le_shiftLeft
    · exact le_rfl
  have hfunction : (weights ts m sat s type).function = (usable m sat type .function).size <<< 3 := by
    simp [weights, hcounter]
  have hcompound : (weights ts m sat s type).compound = (usable m sat type .compound).size <<< 3 := rfl
  simp only [Nat.shiftLeft_eq] at hsimple hfunction hcompound
  rw [Weights.total]
  cases k with
  | pointer => exact absurd rfl hk
  | simple => omega
  | compound => omega
  | function => omega

theorem makeValue_fails {s : GenState} {type : TypeID} (hcounters : s.genCounter ≤ 3 ∧ s.functionGenCounter = 0)
    (htype : ¬ (ts.isCompoundType type = true ∨ ts.isFunctionType type = true)) {k : TypeKind} (hk : k ≠ .pointer)
    (husable : (usable m sat type k).size ≠ 0) (hrand : s.rand.head = 0) :
    makeValue weak ts m sat core type s = .error .assertion := by
  obtain ⟨hsize,htotal⟩ := total_ne_zero ts (s := s) hcounters.2 hk husable
  have hexpression : 0 < (weights ts m sat s type).expression := by
    have hcounter : ¬ s.genCounter > 15 ∧ ¬ s.genCounter > 3 := by omega
    simp only [weights, expressionSize, if_neg (mt Or.symm htype), if_neg hcounter.1, if_neg hcounter.2, Nat.shiftLeft_eq]
    split <;> omega
  rw [makeValue, if_neg hsize, run_get_bind, if_neg htotal, run_bind, getRandInt, if_neg htotal, hrand, Nat.zero_mod]
  simp only [if_pos hexpression]
  rfl

theorem makeValue_compound {s : GenState} {type : TypeID} (hcounter : s.functionGenCounter = 0)
    (htype : ts.isCompoundType type = true) (husable : (usable m sat type .compound).size ≠ 0)
    (hrand : s.rand.head = (weights ts m sat s type).function) :
    makeValue weak ts m sat core type s =
      structureMemberGenHandler weak ts core (usable m sat type .compound) type { s with rand := s.rand.tail } := by
  obtain ⟨hsize,htotal⟩ := total_ne_zero ts (s := s) hcounter (by decide) husable
  have hcompound : 0 < (weights ts m sat s type).compound := by
    simp only [weights, Nat.shiftLeft_eq]
    omega
  have hless : (weights ts m sat s type).function < (weights ts m sat s type).total := by
    rw [Weights.total]
    omega
  rw [makeValue, if_neg hsize, run_get_bind, if_neg htotal, run_bind, getRandInt, if_neg htotal, hrand,
    Nat.mod_eq_of_lt hless]
  simp only [weights_expression (.inl htype), Nat.not_lt_zero, if_false, Nat.sub_zero, lt_irrefl, Nat.sub_self,
    if_pos hcompound]

theorem structureMemberGenHandler_empty (weak : Bool) (hcore : ∀ k, Ensures (AtLeast n) (core k) fun _ => True) (hnames : ts.MembersNamed)
    {c : TypeID} (hc : ts.isCompoundType c = true) (hno : ¬ MemberType true ts c c) {s : GenState} (hs : AtLeast n s)
    {vars : VectorMap TypeID Str} {names : List Str} (hvar : vars.toList[s.rand.head]? = some (c, names))
    (hname : names[s.rand.tail.head]? = some []) :
    Meets (structureMemberGenHandler weak ts core vars c) s fun res _ => res = [] := by
  have hpick : Meets (randomPick vars.toList) s fun e t => e = (c, names) ∧ t = { s with rand := s.rand.tail } :=
    ⟨_,_,randomPick_run hvar,rfl,rfl⟩
  unfold structureMemberGenHandler
  apply hpick.bind
  rintro _ _ ⟨rfl,rfl⟩
  apply Meets.bind (Q := fun _ t => t = { s with rand := s.rand.tail })
  · exact Meets.assertThat (List.ne_nil_of_mem (List.mem_of_getElem? hname)) rfl
  · rintro _ _ rfl
    have hpick' : Meets (randomPick names) { s with rand := s.rand.tail } fun x t =>
        x = [] ∧ t = { s with rand := s.rand.tail.tail } :=
      ⟨_,_,randomPick_run (s := { s with rand := s.rand.tail }) hname,rfl,rfl⟩
    apply hpick'.bind
    rintro _ _ ⟨rfl,rfl⟩
    apply ((getClassMemberByType_ensures hcore hnames hc).meets { s with rand := s.rand.tail.tail } hs).bind
    intro res t hres
    have hnone : res = [] := by
      by_contra hne
      exact hno (hres.1.mp hne)
    rw [if_pos hnone, wholeVariable_eq hc]
    apply Meets.bind (Q := fun _ _ => True)
    · exact Meets.assertThat rfl True.intro
    · exact fun _ _ _ => Meets.pure rfl

end Core

def Composed (ts : TypeSystem) (t : TypeID) : Prop := ts.isCompoundType t = true ∨ ts.isFunctionType t = true

/-- All that the node can make a value of is of compound or function type, and a
visible variable of a compound type has a name, or a way through its members
leads back to its type. -/
structure CannotFail (weak : Bool) (st : ScopeTree) (ts : TypeSystem) (ir : IRNode) : Prop where
  visible : ∀ t d v, Visible st ir t d → ts.getTypePtrByID t = some v → Composed ts t
  members : ∀ c d t, Visible st ir c d → ts.isCompoundType c = true → MemberType weak ts c t → Composed ts t
  results : ∀ s d f, Visible st ir s d → ts.getFunctionType s = some f →
    (∀ a ∈ f.argTypes, Given weak ts (collectAllVarDefinitionByType st ts ir) a) → Composed ts f.returnType
  names : ∀ c d, Visible st ir c d → ts.isCompoundType c = true → d.name = [] → MemberType true ts c c

section Condition
variable {weak : Bool} {st : ScopeTree} {ts : TypeSystem} {ir : IRNode}

theorem mem_collect_compound {c : TypeID} : c ∈ collectAllVarDefinitionByType st ts ir .compound ↔
    ts.isCompoundType c = true ∧ ∃ d, Visible st ir c d := by
  rw [(collect_filled .compound).mem_iff, (ts.agree c).isCompoundType]
  simp only [mem_collect, VarMaps.collectedAs_compound]
  tauto

theorem mem_collect_function {s : TypeID} : s ∈ collectAllVarDefinitionByType st ts ir .function ↔
    ts.isFunctionType s = true ∧ ∃ d, Visible st ir s d := by
  rw [(collect_filled .function).mem_iff, (ts.agree s).isFunctionType]
  simp only [mem_collect, VarMaps.collectedAs_function]
  tauto

theorem onlyComposed_of (h : CannotFail weak st ts ir) : OnlyComposed weak ts (collectAllVarDefinitionByType st ts ir) := by
  intro t k s hhandles
  unfold Handles at hhandles
  obtain ⟨hs,hsource⟩ := hhandles
  cases k with
  | simple =>
    obtain ⟨x,hx⟩ := (collect_filled .simple).mem_iff.mp hs
    obtain ⟨⟨v,hv,_⟩,d,hd,_⟩ := mem_collect.mp hx
    exact hsource ▸ h.visible s d v hd hv
  | compound =>
    obtain ⟨hc,d,hd⟩ := mem_collect_compound.mp hs
    rcases hsource with rfl | hmember
    · exact .inl hc
    · exact h.members s d t hd hc hmember
  | function =>
    obtain ⟨_,d,hd⟩ := mem_collect_function.mp hs
    obtain ⟨f,hf,hargs,hret⟩ := hsource
    exact hret ▸ h.results s d f hd hf hargs
  | pointer => exact hsource.elim

theorem namedOrCyclic_of (h : CannotFail weak st ts ir) : NamedOrCyclic ts (collectAllVarDefinitionByType st ts ir) := by
  intro c hempty
  obtain ⟨hc,_⟩ := mem_collect_compound.mp (VectorMap.mem_of_vals hempty)
  obtain ⟨_,d,hd,hname⟩ := mem_collect.mp hempty
  exact h.names c d hd hc hname

theorem cannotFail_of (honly : OnlyComposed weak ts (collectAllVarDefinitionByType st ts ir))
    (hnamed : NamedOrCyclic ts (collectAllVarDefinitionByType st ts ir)) : CannotFail weak st ts ir where
  visible := by
    intro t d v hd hv
    have hsimple : TypeKind.simple ∈ collectedAs v.kind → Composed ts t := by
      intro hin
      have hmem := mem_collect.mpr ⟨⟨v,hv,hin⟩,d,hd,rfl⟩
      exact honly t .simple t ⟨VectorMap.mem_of_vals hmem,rfl⟩
    cases hkind : v.kind with
    | compound => exact .inl (isCompoundType_of_kind hv hkind)
    | function => exact .inr (isFunctionType_of_kind hv hkind)
    | simple => exact hsimple (by rw [hkind]; decide)
    | pointer => exact hsimple (by rw [hkind]; decide)
  members := by
    intro c d t hd hc hmember
    exact honly t .compound c ⟨mem_collect_compound.mpr ⟨hc,d,hd⟩,.inr hmember⟩
  results := by
    intro s d f hd hf hargs
    exact honly f.returnType .function s ⟨mem_collect_function.mpr ⟨isFunctionType_iff.mpr ⟨f,hf⟩,d,hd⟩,f,hf,hargs,rfl⟩
  names := by
    intro c d hd hc hempty
    obtain ⟨v,hv,hkind⟩ := (ts.agree c).isCompoundType.mp hc
    exact hnamed c (mem_collect.mpr ⟨⟨v,hv,VarMaps.collectedAs_compound.mpr hkind⟩,d,hd,hempty⟩)

/-- Where the generator returns on every random sequence, no type can be chosen
that makes it take the missing branch. -/
theorem onlyComposed_of_total (hpointers : ts.NoPointers)
    (hall : ∀ rand, ∃ r, generateExpression weak st ts ir SpecialType.kAllTypes rand = .ok r) :
    OnlyComposed weak ts (collectAllVarDefinitionByType st ts ir) := by
  obtain ⟨sat,hcollect,_,hsat⟩ := collected_satisfiable weak st ts ir
  intro t k source hhandles
  by_contra hnot
  have hsource : source ∈ sat.handlers t k := (hsat t k source).mpr hhandles
  have ht : t ∈ sat := Satisfiable.mem_of_handlers hsource
  obtain ⟨entry,hentry⟩ : ∃ entry, sat[t]? = some entry :=
    Option.isSome_iff_exists.mp (Std.TreeMap.mem_iff_isSome_getElem?.mp ht)
  obtain ⟨i,hi⟩ := List.mem_iff_getElem?.mp (Std.TreeMap.mem_toList_iff_getElem?_eq_some.mpr hentry)
  have hfunction : ts.isFunctionType t = false := by
    rw [← Bool.not_eq_true]
    exact fun h => hnot (.inr h)
  have hk : k ≠ .pointer := by
    rintro rfl
    exact hhandles.2
  have husable : (usable (collectAllVarDefinitionByType st ts ir) sat t k).size ≠ 0 :=
    VectorMap.size_ne_zero_iff.mpr ⟨source,VectorMap.mem_restrict.mpr ⟨hhandles.1,hsource⟩⟩
  obtain ⟨r,hr⟩ := hall (Stream'.cons i (Stream'.const 0))
  have hcore : generateExpressionByTypeCore weak ts (collectAllVarDefinitionByType st ts ir) sat 52
      SpecialType.kAllTypes ⟨Stream'.cons i (Stream'.const 0),0,0⟩ = .error .assertion := by
    rw [generateExpressionByTypeCore_pick hpointers collect_sorted hi hfunction ht]
    exact makeValue_fails ⟨Nat.le_of_ble_eq_true rfl,rfl⟩ hnot hk husable rfl
  unfold generateExpression at hr
  simp only [hcollect, hcore] at hr
  cases hr

theorem namedOrCyclic_of_total (hpointers : ts.NoPointers) (hnames : ts.MembersNamed)
    (hall : ∀ rand, ∃ r, generateExpression weak st ts ir SpecialType.kAllTypes rand = .ok r)
    (honly : OnlyComposed weak ts (collectAllVarDefinitionByType st ts ir)) :
    NamedOrCyclic ts (collectAllVarDefinitionByType st ts ir) := by
  obtain ⟨sat,hcollect,hsourced,hsat⟩ :=
    collected_satisfiable weak st ts ir
  intro c hempty
  by_contra hno
  have hmem := VectorMap.mem_of_vals hempty
  have hc : ts.isCompoundType c = true := (mem_collect_compound.mp hmem).1
  have hsource : c ∈ sat.handlers c .compound := (hsat c .compound c).mpr ⟨hmem,.inl rfl⟩
  have ht : c ∈ sat := Satisfiable.mem_of_handlers hsource
  have husable : c ∈ usable (collectAllVarDefinitionByType st ts ir) sat c .compound :=
    VectorMap.mem_restrict.mpr ⟨hmem,hsource⟩
  obtain ⟨entry,hentry⟩ : ∃ entry, sat[c]? = some entry :=
    Option.isSome_iff_exists.mp (Std.TreeMap.mem_iff_isSome_getElem?.mp ht)
  obtain ⟨i,hi⟩ := List.mem_iff_getElem?.mp (Std.TreeMap.mem_toList_iff_getElem?_eq_some.mpr hentry)
  have hvar : (c, (collectAllVarDefinitionByType st ts ir .compound).vals c) ∈
      (usable (collectAllVarDefinitionByType st ts ir) sat c .compound).toList :=
    VectorMap.mem_entries_restrict.mpr ⟨hsource,VectorMap.exists_entry hempty⟩
  obtain ⟨j,hj⟩ := List.mem_iff_getElem?.mp hvar
  obtain ⟨k,hk⟩ := List.mem_iff_getElem?.mp hempty
  -- pick the type, the branch of the compound variables, the variables of the type, and the one without a name
  let f := (weights ts (collectAllVarDefinitionByType st ts ir) sat ⟨Stream'.const 0,1,0⟩ c).function
  let rand : Rand := Stream'.cons i (Stream'.cons f (Stream'.cons j (Stream'.cons k (Stream'.const 0))))
  have hcore : ∀ t, Ensures (AtLeast 1) (generateExpressionByTypeCore weak ts (collectAllVarDefinitionByType st ts ir)
      sat 51 t) fun _ => True := fun t =>
    (generateExpressionByTypeCore_ensures hpointers hnames collect_sorted hsat hsourced honly rfl (by decide) t).mono
      fun _ _ => True.intro
  obtain ⟨res,t,hrun,hres⟩ := structureMemberGenHandler_empty weak hcore hnames hc hno
    (s := ⟨rand.tail.tail,1,0⟩) le_rfl hj hk
  obtain ⟨r,hr⟩ := hall rand
  have hfunction : ts.isFunctionType c = false := by
    rw [← Bool.not_eq_true, isFunctionType_iff]
    rintro ⟨g,hg⟩
    rw [getFunctionType_of_compound hc] at hg
    cases hg
  have hgenerate : generateExpressionByTypeCore weak ts (collectAllVarDefinitionByType st ts ir) sat 52
      SpecialType.kAllTypes ⟨rand,0,0⟩ = .ok (res,t) := by
    rw [generateExpressionByTypeCore_pick hpointers collect_sorted hi hfunction ht,
      makeValue_compound rfl hc (VectorMap.size_ne_zero_iff.mpr ⟨c,husable⟩) rfl]
    exact hrun
  unfold generateExpression at hr
  simp only [hcollect, hgenerate, if_pos hres] at hr
  cases hr

/-- The generator returns on every random sequence exactly under the condition. -/
theorem generateExpression_total_iff (hpointers : ts.NoPointers) (hnames : ts.MembersNamed) :
    (∀ rand, ∃ res rand', generateExpression weak st ts ir SpecialType.kAllTypes rand = .ok (res,rand') ∧ res ≠ []) ↔
      CannotFail weak st ts ir := by
  constructor
  · intro hall
    have hall' : ∀ rand, ∃ r, generateExpression weak st ts ir SpecialType.kAllTypes rand = .ok r := by
      intro rand
      obtain ⟨res,rand',hrun,_⟩ := hall rand
      exact ⟨_,hrun⟩
    have honly := onlyComposed_of_total hpointers hall'
    exact cannotFail_of honly (namedOrCyclic_of_total hpointers hnames hall' honly)
  · intro h rand
    obtain ⟨sat,hcollect,hsourced,hsat⟩ :=
      collected_satisfiable weak st ts ir
    have hcore : ∀ k, Ensures (AtLeast 0) (generateExpressionByTypeCore weak ts (collectAllVarDefinitionByType st ts ir)
        sat 52 k) fun res => NamedOrCyclic ts (collectAllVarDefinitionByType st ts ir) → res ≠ [] :=
      generateExpressionByTypeCore_ensures hpointers hnames collect_sorted hsat hsourced (onlyComposed_of h) rfl
        (by decide)
    obtain ⟨res,t,hrun,hne,_⟩ := (hcore SpecialType.kAllTypes).meets ⟨rand,0,0⟩ (Nat.zero_le _)
    have hres := hne (namedOrCyclic_of h)
    refine ⟨res,t.rand,?_,hres⟩
    unfold generateExpression
    simp only [hcollect, hrun, if_neg hres]

end Condition

def intTypes : TypeSystem := TypeSystem.construct (intConfig true) .initial

def intScopes : ScopeTree := globalScope [⟨"x".toList,10,1⟩]

def classTypes : TypeSystem := intTypes.createCompoundType "S".toList []

def classScopes : ScopeTree := globalScope [⟨"a".toList,11,1⟩]

theorem classTypes_compound {c : TypeID} {ct : CompoundType} (h : classTypes.getCompoundType c = some ct) :
    ct.members = ∅ := by
  have hown : classTypes.own.compound = (∅ : Std.TreeMap TypeID CompoundType).insert 11 ⟨11,"S".toList,∅⟩ := rfl
  rw [TypeTables.getCompoundType, classTypes.statics_ok.compound, hown, VectorMap.getElem?_insert_ite] at h
  by_cases hc : (11 : TypeID) = c
  · rw [if_pos hc] at h
    cases h
    rfl
  · simp [hc] at h

theorem classScopes_visible {t : TypeID} {d : Definition} (h : Visible classScopes useNode t d) :
    t = 11 ∧ d = ⟨"a".toList,11,1⟩ := by
  obtain ⟨s,hs,hd,_⟩ := h
  have htables : (classScopes.enclosing useNode.scopeId).map (fun s => s.2.symbolTable.toList) =
      [[(11,[⟨"a".toList,11,1⟩])]] := by decide +kernel
  have htable : s.2.symbolTable.toList = [(11,[⟨"a".toList,11,1⟩])] := by
    have hmem := List.mem_map_of_mem (f := fun s => s.2.symbolTable.toList) hs
    rw [htables] at hmem
    exact List.mem_singleton.mp hmem
  have hentry := VectorMap.exists_entry hd
  rw [htable, List.mem_singleton, Prod.mk.injEq] at hentry
  rw [hentry.2, List.mem_singleton] at hd
  exact ⟨hentry.1,hd⟩

theorem classVariable_total : ∃ res rand',
    generateExpression true classScopes classTypes useNode SpecialType.kAllTypes (choices []) = .ok (res,rand') ∧
      res ≠ [] := by
  have hpointers : classTypes.NoPointers := noPointers_of_entries (by decide +kernel)
  have hnames : classTypes.MembersNamed := by
    intro c ct hct
    rw [classTypes_compound hct]
    exact VectorMap.filled_empty
  have hc : classTypes.isCompoundType 11 = true := by decide +kernel
  have hoffers : ∀ d t, ¬ Offers true classTypes d t := by
    rintro d t ⟨ct,hct,k,hk,_⟩
    rw [CompoundType.memberTypes, classTypes_compound hct] at hk
    simp at hk
  apply (generateExpression_total_iff hpointers hnames).mpr ?_ (choices [])
  constructor
  · intro t d v hd _
    exact .inl ((classScopes_visible hd).1 ▸ hc)
  · intro c d t _ _ hmember
    obtain ⟨d,_,ho⟩ := hmember
    exact absurd ho (hoffers d t)
  · intro s d f hd hf
    rw [(classScopes_visible hd).1, getFunctionType_of_compound hc] at hf
    cases hf
  · intro c d hd _ hempty
    rw [(classScopes_visible hd).2] at hempty
    cases hempty

/-- The first type, and then zero: the branch that is not written. -/
theorem intVariable_fails : intTypes.NoPointers ∧ intTypes.MembersNamed ∧
    (∀ c ct, intTypes.getCompoundType c = some ct → ∀ k ∈ ct.memberTypes, (intTypes.getTypePtrByID k).isSome) ∧
    (intScopes.getScopeById useNode.scopeId).isSome ∧
    generateExpression true intScopes intTypes useNode SpecialType.kAllTypes (choices []) = .error .assertion := by
  have hnone : ∀ c, intTypes.getCompoundType c = none := by
    intro c
    rw [TypeTables.getCompoundType, intTypes.statics_ok.compound]
    simp [intTypes, TypeSystem.construct, TypeTables.construct]
  refine ⟨noPointers_of_entries (by decide +kernel),?_,?_,by decide +kernel,?_⟩
  · intro c ct hct
    rw [hnone] at hct
    cases hct
  · intro c ct hct
    rw [hnone] at hct
    cases hct
  · have hrun : (generateExpression true intScopes intTypes useNode SpecialType.kAllTypes (choices [])).map Prod.fst =
        .error .assertion := by decide +kernel
    cases hgen : generateExpression true intScopes intTypes useNode SpecialType.kAllTypes (choices []) with
    | error f =>
      rw [hgen] at hrun
      cases hrun
      rfl
    | ok r =>
      rw [hgen] at hrun
      cases hrun

end Generator

end PolyGlot
