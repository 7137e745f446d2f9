import PolyGlot.Generator.Quiet
import PolyGlot.Support.Checked

set_option autoImplicit false

/-! # The range of the weights

The weight of the functions is shifted back by a quarter of the number of
parameters that the functions called so far have. Each call is paid by the values
that are begun for its arguments, and so five parameters keep the amount below the
width of the type, and six do not.
-/
namespace PolyGlot

namespace Generator

open Prog TypeSystem

def Weights.Fits (w : Weights) : Prop :=
  w.expression ≤ 2^64 - 1 ∧ w.function ≤ 2^64 - 1 ∧ w.compound ≤ 2^64 - 1 ∧ w.simple ≤ 2^64 - 1 ∧ w.total ≤ 2^64 - 1

instance (w : Weights) : Decidable w.Fits := inferInstanceAs (Decidable (_ ∧ _ ∧ _ ∧ _ ∧ _))

section Definitions
variable (weak : Bool) (ts : TypeSystem) (varMaps : VarMaps) (allSatisfiableTypes : Satisfiable)

/-- The weights are computed where some variable is usable. With both counters at
zero they are the sizes that were only shifted to the left. -/
def InRange (s : GenState) (type : TypeID) : Prop :=
  (usable varMaps allSatisfiableTypes type .function).size + (usable varMaps allSatisfiableTypes type .compound).size +
      (usable varMaps allSatisfiableTypes type .simple).size ≠ 0 →
    s.functionGenCounter >>> 2 < 64 ∧
    (weights ts varMaps allSatisfiableTypes { s with genCounter := 0, functionGenCounter := 0 } type).Fits ∧
    (weights ts varMaps allSatisfiableTypes s type).Fits

instance (s : GenState) (type : TypeID) : Decidable (InRange ts varMaps allSatisfiableTypes s type) :=
  inferInstanceAs (Decidable (_ → _ ∧ _ ∧ _))

def checkedCore : ℕ → TypeID → Gen Str
  | 0, _ => fail .outOfFuel
  | fuel + 1, type => do
    if (← get).genCounter > 50 then genRandomNumString
    else do
      modify fun s => { s with genCounter := s.genCounter + 1 }
      onlyIf (weak = false) (updatePointerVar varMaps)
      let type ← pickType ts allSatisfiableTypes type
      if type ∈ allSatisfiableTypes then do
        let s ← get
        assertThat (InRange ts varMaps allSatisfiableTypes s type) .contract
        makeValue weak ts varMaps allSatisfiableTypes (checkedCore fuel) type
      else genRandomNumString

end Definitions

def checkedExpression (weak : Bool) (st : ScopeTree) (ts : TypeSystem) (ir : IRNode) (type : TypeID) :
    Prog Fault Rand Str := fun rand =>
  let varMaps := collectAllVarDefinitionByType st ts ir
  match collectSatisfiableTypes weak ts varMaps with
  | .error f => .error f
  | .ok allSatisfiableTypes =>
    match checkedCore weak ts varMaps allSatisfiableTypes 52 type ⟨rand,0,0⟩ with
    | .error f => .error f
    | .ok (res, s) => if res = [] then .error .assertion else .ok (res, s.rand)

/-- In every call of the core that is made for the expression the weights are in range. -/
def StaysInRange (weak : Bool) (st : ScopeTree) (ts : TypeSystem) (ir : IRNode) (type : TypeID) (rand : Rand) : Prop :=
  checkedExpression weak st ts ir type rand ≠ .error .contract

section Weights
variable (ts : TypeSystem) (m : VarMaps) (sat : Satisfiable) (s : GenState) (type : TypeID)

theorem usable_size_le (k : TypeKind) : (usable m sat type k).size ≤ (m k).size := Std.TreeMap.size_filter_le_size

theorem expressionSize_le (size : ℕ) : expressionSize ts type size ≤ size + 1 := by
  have hhalf : size >>> 1 ≤ size := Nat.shiftRight_le size 1
  unfold expressionSize
  split
  · exact Nat.zero_le _
  · split <;> omega

theorem weights_expression_le : (weights ts m sat s type).expression ≤ 2 * ((usable m sat type .function).size +
    (usable m sat type .compound).size + (usable m sat type .simple).size + 1) := by
  have hsize := expressionSize_le ts type ((usable m sat type .function).size +
    (usable m sat type .compound).size + (usable m sat type .simple).size)
  have hback : ∀ e : ℕ, e >>> 2 ≤ e := fun e => Nat.shiftRight_le e 2
  simp only [weights]
  split
  · exact Nat.zero_le _
  · split
    · apply (hback _).trans
      rw [Nat.shiftLeft_eq]
      omega
    · rw [Nat.shiftLeft_eq]
      omega

theorem weights_function_le : (weights ts m sat s type).function ≤ 8 * (usable m sat type .function).size := by
  simp only [weights]
  split
  · apply (Nat.shiftRight_le _ _).trans
    rw [Nat.shiftLeft_eq]
    omega
  · rw [Nat.shiftLeft_eq]
    omega

theorem weights_compound_eq : (weights ts m sat s type).compound = 8 * (usable m sat type .compound).size := by
  simp only [weights, Nat.shiftLeft_eq]
  omega

theorem weights_simple_le : (weights ts m sat s type).simple ≤ 2^22 * (usable m sat type .simple).size := by
  simp only [weights, Nat.shiftLeft_eq]
  split <;> omega

variable {ts m sat s type}

/-- Sizes below 2^32 leave room for the shifts to the left. -/
theorem weights_fits (hsizes : ∀ k, (m k).size < 2^32) : (weights ts m sat s type).Fits := by
  have hsize : ∀ k, (usable m sat type k).size < 2^32 := fun k => (usable_size_le m sat type k).trans_lt (hsizes k)
  have hsimple := hsize .simple
  have hcompound := hsize .compound
  have hfunction := hsize .function
  have hexpression_le := weights_expression_le ts m sat s type
  have hfunction_le := weights_function_le ts m sat s type
  have hcompound_eq := weights_compound_eq ts m sat s type
  have hsimple_le := weights_simple_le ts m sat s type
  unfold Weights.Fits Weights.total
  omega

/-- The last bit of the weight of 2^32 functions is shifted out at 140 parameters. -/
theorem counter_lt_of_function (hsizes : ∀ k, (m k).size < 2^32) (hcounter : s.functionGenCounter < 256)
    (h : 0 < (weights ts m sat s type).function) : s.functionGenCounter < 140 := by
  by_contra hmany
  have hsize := (usable_size_le m sat type .function).trans_lt (hsizes .function)
  have hshift : 35 ≤ s.functionGenCounter >>> 2 ∧ s.functionGenCounter >>> 2 < 64 := by
    rw [Nat.shiftRight_eq_div_pow]
    omega
  have hpow : 2^35 ≤ 2^(s.functionGenCounter >>> 2) := Nat.pow_le_pow_right (by decide) hshift.1
  have hzero : (weights ts m sat s type).function = 0 := by
    simp only [weights]
    rw [if_pos (by omega), Nat.mod_eq_of_lt hshift.2, Nat.shiftRight_eq_div_pow, Nat.shiftLeft_eq]
    exact Nat.div_eq_of_lt (by omega)
  omega

theorem inRange_of_lt (hsizes : ∀ k, (m k).size < 2^32) (hcounter : s.functionGenCounter < 256) :
    InRange ts m sat s type := by
  intro _
  refine ⟨?_,weights_fits hsizes,weights_fits hsizes⟩
  rw [Nat.shiftRight_eq_div_pow]
  omega

end Weights

def ListedFunction (weak : Bool) (ts : TypeSystem) (m : VarMaps) (f : FunctionType) : Prop :=
  ∃ t s, Handles weak ts m t .function s ∧ ts.getFunctionType s = some f

def MemberFunction (ts : TypeSystem) (m : VarMaps) (f : FunctionType) : Prop :=
  ∃ c ∈ m .compound, ∃ d ct, Search.Reaches ts.compoundMembers c d ∧ ts.getCompoundType d = some ct ∧
    ∃ s ∈ ct.members, ts.getFunctionType s = some f

/-- `I` holds before a value is made and `J` after it: with the first argument there
is a value to pay for a call of a function with `P`. -/
def Pays (I J : GenState → Prop) (P : FunctionType → Prop) (s : GenState) : Prop :=
  J s ∧ ∀ f, P f → f.argTypes ≠ [] → I { s with functionGenCounter := s.functionGenCounter + f.argTypes.length }

structure Charges (P : FunctionType → Prop) (I J : GenState → Prop) : Prop where
  weaken : ∀ s, J s → I s
  randBefore : ∀ s r, I s → I { s with rand := r }
  rand : ∀ s r, J s → J { s with rand := r }
  pays : ∀ s, J s → Pays I J P s

theorem Charges.pays_rand {P : FunctionType → Prop} {I J : GenState → Prop} (h : Charges P I J) {R : FunctionType → Prop}
    (s : GenState) (r : Rand) (hs : Pays I J R s) : Pays I J R { s with rand := r } :=
  ⟨h.rand s r hs.1,fun f hf hargs => h.randBefore _ r (hs.2 f hf hargs)⟩

theorem Charges.trivial : Charges (fun _ => True) (fun _ => True) fun _ => True :=
  ⟨fun _ _ => True.intro,fun _ _ _ => True.intro,fun _ _ _ => True.intro,fun _ _ => ⟨True.intro,fun _ _ _ => True.intro⟩⟩

section Handlers
variable {V : Prop} {P : FunctionType → Prop} {I J : GenState → Prop} {weak : Bool} {ts : TypeSystem}
  {core core' : TypeID → Gen Str} {targetType : TypeID}

theorem Quiet.checked {α : Type} {m : Gen α} {Q : α → Prop} (h : Quiet m Q) {K : GenState → Prop}
    (hK : ∀ s r, K s → K { s with rand := r }) : Checked .contract V K m m Q K :=
  (h.ensuresOr (fun _ he => he.1) hK).checked

def Found.Calls (ts : TypeSystem) (P : FunctionType → Prop) (found : Found) : Prop :=
  ∀ f ∈ found.funcSol, ts.getFunctionType f.typeId = some f ∧ P f

theorem memberLoop_checked {search search' : TypeID → Finset TypeID → Gen (Str × Finset TypeID)}
    (hrand : ∀ s r, J s → J { s with rand := r }) {members : List (TypeID × List Str)}
    (hsearch : ∀ e ∈ members, ts.isCompoundType e.1 = true → ∀ visit,
      Checked .contract V J (search' e.1 visit) (search e.1 visit) (fun _ => True) J)
    (hfunctions : ∀ e ∈ members, ∀ f, ts.getFunctionType e.1 = some f → P f) {found : Found} (hfound : found.Calls ts P) :
    Checked .contract V J (memberLoop ts search' targetType members found) (memberLoop ts search targetType members found)
      (Found.Calls ts P) J := by
  induction members generalizing found with
  | nil => exact .pure hfound
  | cons member rest ih =>
    obtain ⟨hmember,hrest⟩ := List.forall_mem_cons.mp hsearch
    obtain ⟨hfunction,hfunctions⟩ := List.forall_mem_cons.mp hfunctions
    unfold memberLoop
    apply Checked.ite
    · intro hc
      apply Checked.ite
      · exact fun _ => ih hrest hfunctions hfound
      · intro _
        apply (hmember hc found.visit).bind
        intro r _
        apply Checked.ite
        · exact fun _ => ih hrest hfunctions hfound
        · intro _
          apply ((randomPick_quiet member.2).checked hrand).bind
          exact fun name _ => ih hrest hfunctions hfound
    · intro _
      apply Checked.ite
      · intro _
        apply Checked.ite
        · intro _
          apply ((randomPick_quiet member.2).checked hrand).bind
          exact fun name _ => ih hrest hfunctions hfound
        · intro _
          cases hf : ts.getFunctionType member.1 with
          | none => exact .fail (by decide)
          | some f =>
            apply Checked.ite
            · exact fun _ => ih hrest hfunctions hfound
            · intro _
              apply ih hrest hfunctions
              intro g hg
              rcases List.mem_append.mp hg with hg | hg
              · exact hfound g hg
              · rw [List.mem_singleton.mp hg]
                exact ⟨(getFunctionType_typeId hf).symm ▸ hf,hfunction f hf⟩
      · exact fun _ => ih hrest hfunctions hfound

variable (hcharges : Charges P I J) (hcore : ∀ k, Checked .contract V I (core' k) (core k) (fun _ => True) J)
include hcharges hcore

theorem appendArguments_checked (ks : List TypeID) (res : Str) :
    Checked .contract V J (appendArguments core' ks res) (appendArguments core ks res) (fun _ => True) J := by
  induction ks generalizing res with
  | nil => exact .pure True.intro
  | cons k ks ih =>
    unfold appendArguments
    exact ((hcore k).weaken hcharges.weaken).bind fun arg _ => ih _

/-- The first argument is begun in a state with `I` only. -/
theorem appendArguments_first {ks : List TypeID} (hks : ks ≠ []) (res : Str) :
    Checked .contract V I (appendArguments core' ks res) (appendArguments core ks res) (fun _ => True) J := by
  cases ks with
  | nil => exact absurd rfl hks
  | cons k ks =>
    unfold appendArguments
    exact (hcore k).bind fun arg _ => appendArguments_checked hcharges hcore ks _

theorem functionCallGenHandler_checked {R : FunctionType → Prop} {functionMap : VectorMap TypeID Str}
    (hfunctions : ∀ s ∈ functionMap, ∀ f, ts.getFunctionType s = some f → R f) :
    Checked .contract V (Pays I J R) (functionCallGenHandler ts core' functionMap)
      (functionCallGenHandler ts core functionMap) (fun _ => True) J := by
  unfold functionCallGenHandler
  apply ((Quiet.assertThat (by decide)).checked hcharges.pays_rand).bind
  intro _ _
  apply ((randomPick_quiet _).checked hcharges.pays_rand).bind
  intro e he
  cases hf : ts.getFunctionType e.1 with
  | none => exact .fail (by decide)
  | some f =>
    have hR : R f := hfunctions e.1 (VectorMap.mem_of_entry he) f hf
    by_cases hargs : f.argTypes = []
    · apply Checked.modify_bind (J := J)
      · intro s hs
        simpa [hargs] using hs.1
      · exact (appendArguments_checked hcharges hcore _ _).bind fun res _ => .pure True.intro
    · apply Checked.modify_bind (J := I)
      · exact fun s hs => hs.2 f hR hargs
      · exact (appendArguments_first hcharges hcore hargs _).bind fun res _ => .pure True.intro

theorem callMember_checked {funcSol : List FunctionType} (hfuncs : ∀ f ∈ funcSol, ts.getFunctionType f.typeId = some f ∧ P f) :
    Checked .contract V J (callMember ts core' funcSol) (callMember ts core funcSol) (fun _ => True) J := by
  unfold callMember
  apply ((randomPick_quiet _).checked hcharges.rand).bind
  intro f hf
  obtain ⟨hself,hP⟩ := hfuncs f hf
  have hfunctions : ∀ s ∈ (∅ : VectorMap TypeID Str).push f.typeId f.name, ∀ g, ts.getFunctionType s = some g → P g := by
    intro s hs g hg
    rcases VectorMap.mem_push.mp hs with rfl | hs
    · rw [hself] at hg
      cases hg
      exact hP
    · simp at hs
  have hcall := (functionCallGenHandler_checked hcharges hcore hfunctions).weaken hcharges.pays
  exact hcall.bind fun res _ => .pure True.intro

theorem pickSolution_checked {allSol : List Str} {funcSol : List FunctionType}
    (hfuncs : ∀ f ∈ funcSol, ts.getFunctionType f.typeId = some f ∧ P f) :
    Checked .contract V J (pickSolution ts core' allSol funcSol) (pickSolution ts core allSol funcSol)
      (fun _ => True) J := by
  have hpick : Checked .contract V J (randomPick allSol) (randomPick allSol) (fun _ => True) J :=
    ((randomPick_quiet allSol).mono fun _ _ => True.intro).checked hcharges.rand
  have hcall := callMember_checked hcharges hcore hfuncs
  unfold pickSolution
  apply Checked.ite
  · exact fun _ => hpick
  · intro _
    apply Checked.ite
    · exact fun _ => hcall
    · intro _
      apply Checked.ite
      · intro _
        apply ((getRandInt_quiet 2).checked hcharges.rand).bind
        exact fun coin _ => .ite (fun _ => hcall) fun _ => hpick
      · exact fun _ => .pure True.intro

theorem getClassMemberByTypeNoDuplicate_checked (fuel : ℕ) (c : TypeID) (visit : Finset TypeID)
    (hmembers : ∀ d ct, Search.Reaches ts.compoundMembers c d → ts.getCompoundType d = some ct →
      ∀ s ∈ ct.members, ∀ f, ts.getFunctionType s = some f → P f) :
    Checked .contract V J (getClassMemberByTypeNoDuplicate ts core' targetType fuel c visit)
      (getClassMemberByTypeNoDuplicate ts core targetType fuel c visit) (fun _ => True) J := by
  induction fuel generalizing c visit with
  | zero => exact .fail (by decide)
  | succ fuel ih =>
    unfold getClassMemberByTypeNoDuplicate
    cases hct : ts.getCompoundType c with
    | none => exact .fail (by decide)
    | some ct =>
      apply ((directMembers_quiet _ _).checked hcharges.rand).bind
      intro direct _
      apply (memberLoop_checked hcharges.rand (P := P) _ _ _).bind
      · intro found hfound
        apply (pickSolution_checked hcharges hcore hfound).bind
        exact fun res _ => .pure True.intro
      · intro e he hc visit
        have hnext : e.1 ∈ ts.compoundMembers c := by
          rw [compoundMembers, hct]
          exact List.mem_filter.mpr ⟨Std.TreeMap.mem_keys.mpr (VectorMap.mem_of_entry he),hc⟩
        exact ih e.1 visit fun d ct hreach => hmembers d ct (Relation.ReflTransGen.head hnext hreach)
      · exact fun e he f hf => hmembers c ct .refl hct e.1 (VectorMap.mem_of_entry he) f hf
      · simp [Found.Calls]

theorem structureMemberGenHandler_checked {vars : VectorMap TypeID Str} (memberType : TypeID)
    (hmembers : ∀ c ∈ vars, ∀ d ct, Search.Reaches ts.compoundMembers c d → ts.getCompoundType d = some ct →
      ∀ s ∈ ct.members, ∀ f, ts.getFunctionType s = some f → P f) :
    Checked .contract V J (structureMemberGenHandler weak ts core' vars memberType)
      (structureMemberGenHandler weak ts core vars memberType) (fun _ => True) J := by
  unfold structureMemberGenHandler
  apply ((randomPick_quiet _).checked hcharges.rand).bind
  intro compound hcompound
  apply ((Quiet.assertThat (by decide)).checked hcharges.rand).bind
  intro _ _
  apply ((randomPick_quiet _).checked hcharges.rand).bind
  intro compoundVar _
  have hsearch : Checked .contract V J (getClassMemberByType ts core' compound.1 memberType)
      (getClassMemberByType ts core compound.1 memberType) (fun _ => True) J := by
    unfold getClassMemberByType
    exact (getClassMemberByTypeNoDuplicate_checked hcharges hcore _ compound.1 ∅
      (hmembers compound.1 (VectorMap.mem_of_entry hcompound))).bind fun r _ => .pure True.intro
  apply hsearch.bind
  intro res _
  apply Checked.ite
  · intro _
    apply ((Quiet.assertThat (by decide)).checked hcharges.rand).bind
    exact fun _ _ => (wholeVariable_quiet ..).checked hcharges.rand
  · exact fun _ => .pure True.intro

end Handlers

section Core
variable {V : Prop} {P : FunctionType → Prop} {I J : GenState → Prop} {weak : Bool} {ts : TypeSystem} {m : VarMaps}
  {sat : Satisfiable} {core core' : TypeID → Gen Str}

theorem makeValue_checked (hcharges : Charges P I J)
    (hcore : ∀ k, Checked .contract V I (core' k) (core k) (fun _ => True) J)
    (hmembers : ∀ f, MemberFunction ts m f → P f)
    (hlisted : ∀ s type, J s → 0 < (weights ts m sat s type).function → Pays I J (ListedFunction weak ts m) s)
    (hsat : ∀ t k s, s ∈ sat.handlers t k ↔ Handles weak ts m t k s) (type : TypeID) :
    Checked .contract V J (makeValue weak ts m sat core' type) (makeValue weak ts m sat core type) (fun _ => True) J := by
  have hfunctions : ∀ s ∈ usable m sat type .function, ∀ f, ts.getFunctionType s = some f → ListedFunction weak ts m f := by
    intro s hs f hf
    exact ⟨type,s,(hsat type .function s).mp (VectorMap.mem_restrict.mp hs).2,hf⟩
  have hstructures : ∀ c ∈ usable m sat type .compound, ∀ d ct, Search.Reaches ts.compoundMembers c d →
      ts.getCompoundType d = some ct → ∀ s ∈ ct.members, ∀ f, ts.getFunctionType s = some f → P f := by
    intro c hc d ct hreach hct s hs f hf
    exact hmembers f ⟨c,(VectorMap.mem_restrict.mp hc).1,d,ct,hreach,hct,s,hs,hf⟩
  have hnumber : Checked .contract V J genRandomNumString genRandomNumString (fun _ => True) J :=
    genRandomNumString_quiet.checked hcharges.rand
  unfold makeValue
  apply Checked.ite
  · exact fun _ => hnumber
  · intro _
    apply Checked.get_bind
    intro s hs
    -- the weight that the choice falls on is that of the state that was read
    let K : GenState → Prop := fun t => J t ∧ (0 < (weights ts m sat s type).function → Pays I J (ListedFunction weak ts m) t)
    have hKJ : ∀ t, K t → J t := fun t ht => ht.1
    have hK : ∀ t r, K t → K { t with rand := r } := fun t r ht =>
      ⟨hcharges.rand t r ht.1,fun hpos => hcharges.pays_rand t r (ht.2 hpos)⟩
    have hsame : ∀ t, t = s → K t := fun t ht => ht ▸ ⟨hs,hlisted s type hs⟩
    apply Checked.weaken _ hsame
    apply Checked.ite
    · exact fun _ => hnumber.weaken hKJ
    · intro _
      apply ((getRandInt_quiet _).checked hK).bind
      intro choice _
      apply Checked.ite
      · exact fun _ => .fail (by decide)
      · intro _
        apply Checked.ite
        · intro hfunction
          exact (functionCallGenHandler_checked hcharges hcore hfunctions).weaken fun t ht =>
            ht.2 (Nat.zero_lt_of_lt hfunction)
        · intro _
          apply Checked.ite
          · exact fun _ => (structureMemberGenHandler_checked hcharges hcore type hstructures).weaken hKJ
          · intro _
            apply Checked.weaken _ hKJ
            apply ((Quiet.assertThat (by decide)).checked hcharges.rand).bind
            exact fun _ _ => ((randomPick_quiet _).mono fun _ _ => True.intro).checked hcharges.rand

/-- What a call does once it has counted itself, up to the value. -/
theorem picked_checked {K : GenState → Prop} {value value' : TypeID → Gen Str} (hKJ : ∀ s, K s → J s)
    (hJ : ∀ s r, J s → J { s with rand := r }) (hK : ∀ s r, K s → K { s with rand := r })
    (hvalue : ∀ t, Checked .contract V K (value' t) (value t) (fun _ => True) J) (type : TypeID) :
    Checked .contract V K (do
      onlyIf (weak = false) (updatePointerVar m)
      let type ← pickType ts sat type
      if type ∈ sat then value' type else genRandomNumString) (do
      onlyIf (weak = false) (updatePointerVar m)
      let type ← pickType ts sat type
      if type ∈ sat then value type else genRandomNumString) (fun _ => True) J := by
  apply ((Quiet.onlyIf (updatePointerVar_quiet m)).checked hK).bind
  intro _ _
  apply ((pickType_quiet ts sat type).checked hK).bind
  intro t _
  apply Checked.ite
  · exact fun _ => hvalue t
  · exact fun _ => (genRandomNumString_quiet.checked hJ).weaken hKJ

/-- A value is begun from a state with `I`, the weights are in range unless `V`, and
the state that is left is one with `J`. -/
theorem checkedCore_checked (hcharges : Charges P I J)
    (hbegin : ∀ s, I s → s.genCounter ≤ 50 → J { s with genCounter := s.genCounter + 1 } ∧
      (V ∨ ∀ type, InRange ts m sat { s with genCounter := s.genCounter + 1 } type))
    (hdone : ∀ s, I s → 50 < s.genCounter → J s) (hmembers : ∀ f, MemberFunction ts m f → P f)
    (hlisted : ∀ s type, J s → 0 < (weights ts m sat s type).function → Pays I J (ListedFunction weak ts m) s)
    (hsat : ∀ t k s, s ∈ sat.handlers t k ↔ Handles weak ts m t k s) (fuel : ℕ) (type : TypeID) :
    Checked .contract V I (checkedCore weak ts m sat fuel type) (generateExpressionByTypeCore weak ts m sat fuel type)
      (fun _ => True) J := by
  induction fuel generalizing type with
  | zero => exact .fail (by decide)
  | succ fuel ih =>
    unfold checkedCore generateExpressionByTypeCore
    apply Checked.get_bind
    intro s hs
    apply Checked.ite
    · intro hcounter
      have hsame : ∀ t, t = s → J t := fun t ht => ht ▸ hdone s hs hcounter
      exact (genRandomNumString_quiet.checked hcharges.rand).weaken hsame
    · intro hcounter
      have hbegun := hbegin s hs (Nat.not_lt.mp hcounter)
      -- until the weights are computed the counters are those of the state that was begun with
      apply Checked.modify_bind (J := fun t => J t ∧ (V ∨ ∀ type, InRange ts m sat t type))
      · exact fun t ht => ht ▸ hbegun
      · apply picked_checked (fun t ht => ht.1) hcharges.rand fun t r ht => ⟨hcharges.rand t r ht.1,ht.2⟩
        intro t
        apply Checked.check
        · exact fun u hu => hu.2.imp_right fun h => h t
        · exact (makeValue_checked hcharges ih hmembers hlisted hsat t).weaken fun u hu => hu.1

/-- A run in which no check fails is the run without the checks. -/
theorem checkedCore_error_or_eq (hsat : ∀ t k s, s ∈ sat.handlers t k ↔ Handles weak ts m t k s) (fuel : ℕ)
    (type : TypeID) (s : GenState) : checkedCore weak ts m sat fuel type s = .error .contract ∨
      checkedCore weak ts m sat fuel type s = generateExpressionByTypeCore weak ts m sat fuel type s := by
  have hchecked : Checked .contract True (fun _ => True) (checkedCore weak ts m sat fuel type)
      (generateExpressionByTypeCore weak ts m sat fuel type) (fun _ => True) fun _ => True := by
    apply checkedCore_checked Charges.trivial
    · exact fun _ _ _ => ⟨True.intro,.inl True.intro⟩
    · exact fun _ _ _ => True.intro
    · exact fun _ _ => True.intro
    · exact fun _ _ _ _ => ⟨True.intro,fun _ _ _ => True.intro⟩
    · exact hsat
  exact hchecked.error_or_eq True.intro

/-- Without the checks no run fails as a check does. -/
theorem generateExpressionByTypeCore_checked (hsat : ∀ t k s, s ∈ sat.handlers t k ↔ Handles weak ts m t k s)
    (fuel : ℕ) (type : TypeID) :
    Checked .contract False (fun _ => True) (generateExpressionByTypeCore weak ts m sat fuel type)
      (generateExpressionByTypeCore weak ts m sat fuel type) (fun _ => True) fun _ => True := by
  have hcharges := Charges.trivial
  induction fuel generalizing type with
  | zero => exact .fail (by decide)
  | succ fuel ih =>
    unfold generateExpressionByTypeCore
    apply Checked.get_bind
    intro s _
    apply Checked.weaken (J := fun _ => True) _ fun _ _ => True.intro
    apply Checked.ite
    · exact fun _ => genRandomNumString_quiet.checked hcharges.rand
    · intro _
      apply Checked.modify_bind (J := fun _ => True) fun _ _ => True.intro
      exact picked_checked (fun _ _ => True.intro) hcharges.rand hcharges.rand
        (makeValue_checked hcharges ih (fun _ _ => True.intro)
          (fun _ _ _ _ => ⟨True.intro,fun _ _ _ => True.intro⟩) hsat) type

end Core

section Expression
variable {weak : Bool} {st : ScopeTree} {ts : TypeSystem} {ir : IRNode} {type : TypeID} {rand : Rand} {sat : Satisfiable}

/-- A check fails in the outermost call of the core, or in one below it. -/
theorem staysInRange_of_core (hsat : collectSatisfiableTypes weak ts (collectAllVarDefinitionByType st ts ir) = .ok sat)
    (hcore : checkedCore weak ts (collectAllVarDefinitionByType st ts ir) sat 52 type ⟨rand,0,0⟩ ≠ .error .contract) :
    StaysInRange weak st ts ir type rand := by
  unfold StaysInRange checkedExpression
  simp only [hsat]
  split
  · rename_i f hrun
    exact fun h => hcore (by rw [hrun, Except.error.inj h])
  · split <;> simp

theorem generateExpression_ne_contract : generateExpression weak st ts ir type rand ≠ .error .contract := by
  obtain ⟨sat,hsat,_,hhandles⟩ := collected_satisfiable weak st ts ir
  have hcore := ((generateExpressionByTypeCore_checked hhandles 52 type).eq_of_not not_false
    (s := ⟨rand,0,0⟩) True.intro).2
  unfold generateExpression
  simp only [hsat]
  split
  · rename_i f hrun
    exact fun h => hcore (by rw [hrun, Except.error.inj h])
  · split <;> simp

/-- The weights stay in range exactly where the checks change nothing. -/
theorem staysInRange_iff : StaysInRange weak st ts ir type rand ↔
    checkedExpression weak st ts ir type rand = generateExpression weak st ts ir type rand := by
  constructor
  · intro hstays
    obtain ⟨sat,hsat,_,hhandles⟩ := collected_satisfiable weak st ts ir
    have hcore := checkedCore_error_or_eq hhandles 52 type ⟨rand,0,0⟩
    unfold StaysInRange checkedExpression at hstays
    unfold checkedExpression generateExpression
    simp only [hsat] at hstays ⊢
    rcases hcore with hcore | hcore
    · simp [hcore] at hstays
    · exact hcore ▸ rfl
  · intro hsame
    rw [StaysInRange, hsame]
    exact generateExpression_ne_contract

end Expression

/-- The most parameters that `k` calls of listed functions have, where none has more
than `p`: with 140 parameters counted such functions have no weight. -/
def listedCost (p : ℕ) : ℕ → ℕ
  | 0 => 0
  | k + 1 => min 139 (p * k) + p

/-- Of the fifty values begun before the last one any number `k` may be listed
functions with at most `p` parameters, and the others member functions with at most `n`. -/
def Affordable (n p : ℕ) : Prop := ∀ k ≤ 50, listedCost p k + n * (50 - k) < 256

instance (n p : ℕ) : Decidable (Affordable n p) := inferInstanceAs (Decidable (∀ k ≤ 50, _))

example : Affordable 5 5 ∧ Affordable 4 6 ∧ Affordable 0 116 := by decide

section Costs
variable {n p k : ℕ}

theorem listedCost_le : listedCost p k ≤ p * k := by
  cases k with
  | zero => exact Nat.zero_le _
  | succ k =>
    rw [Nat.mul_succ]
    exact Nat.add_le_add_right (min_le_right 139 (p * k)) p

theorem affordable_of_le (hn : n ≤ 5) (hp : p ≤ n) : Affordable n p := by
  intro k hk
  have hlisted : listedCost p k ≤ n * k := listedCost_le.trans (Nat.mul_le_mul_right k hp)
  have hall : n * k + n * (50 - k) ≤ 5 * 50 := by
    rw [← Nat.mul_add, Nat.add_sub_cancel' hk]
    exact Nat.mul_le_mul_right 50 hn
  omega

def Paid (n p g count : ℕ) : Prop := ∃ k ≤ g, count ≤ listedCost p k + n * (g - k)

variable {g count length : ℕ}

theorem Paid.lt (h : Paid n p g count) (hafford : Affordable n p) (hg : g ≤ 50) : count < 256 := by
  obtain ⟨k,hk,hcount⟩ := h
  have hrest : n * (g - k) ≤ n * (50 - k) := Nat.mul_le_mul_left n (by omega)
  have hless := hafford k (hk.trans hg)
  omega

theorem Paid.succ (h : Paid n p g count) (hlength : length ≤ n) : Paid n p (g + 1) (count + length) := by
  obtain ⟨k,hk,hcount⟩ := h
  refine ⟨k,hk.trans (Nat.le_succ g),?_⟩
  rw [Nat.succ_sub hk, Nat.mul_succ]
  omega

theorem Paid.listed (h : Paid n p g count) (hlength : length ≤ p) (hcount : count < 140) :
    Paid n p (g + 1) (count + length) := by
  obtain ⟨k,hk,hpaid⟩ := h
  have hcost := listedCost_le (p := p) (k := k)
  refine ⟨k + 1,Nat.succ_le_succ hk,?_⟩
  rw [Nat.succ_sub_succ, listedCost]
  omega

/-- What the counted parameters were paid with: before a value is begun, and with the
last value begun. -/
theorem charges_paid (n p : ℕ) : Charges (fun f => f.argTypes.length ≤ n)
    (fun s => s.genCounter ≤ 50 → Paid n p s.genCounter s.functionGenCounter)
    (fun s => s.genCounter ≤ 50 → ∃ g, s.genCounter = g + 1 ∧ Paid n p g s.functionGenCounter) := by
  have hweaken : ∀ (s : GenState) (length : ℕ), length ≤ n →
      (s.genCounter ≤ 50 → ∃ g, s.genCounter = g + 1 ∧ Paid n p g s.functionGenCounter) →
      s.genCounter ≤ 50 → Paid n p s.genCounter (s.functionGenCounter + length) := by
    intro s length hlength hs hcounter
    obtain ⟨g,hg,hpaid⟩ := hs hcounter
    exact hg ▸ hpaid.succ hlength
  constructor
  · exact fun s hs => hweaken s 0 (Nat.zero_le n) hs
  · exact fun s r hs => hs
  · exact fun s r hs => hs
  · exact fun s hs => ⟨hs,fun f hf _ => hweaken s f.argTypes.length hf hs⟩

end Costs

theorem staysInRange_of_affordable {n p : ℕ} (hafford : Affordable n p) {weak : Bool} {st : ScopeTree} {ts : TypeSystem}
    {ir : IRNode} {type : TypeID} {rand : Rand} (hsizes : ∀ k, (collectAllVarDefinitionByType st ts ir k).size < 2^32)
    (hmembers : ∀ f, MemberFunction ts (collectAllVarDefinitionByType st ts ir) f → f.argTypes.length ≤ n)
    (hlisted : ∀ f, ListedFunction weak ts (collectAllVarDefinitionByType st ts ir) f → f.argTypes.length ≤ p) :
    StaysInRange weak st ts ir type rand := by
  obtain ⟨sat,hsat,_,hhandles⟩ := collected_satisfiable weak st ts ir
  have hcore := checkedCore_checked (V := False) (m := collectAllVarDefinitionByType st ts ir) (charges_paid n p) ?_ ?_
    hmembers ?_ hhandles 52 type
  · exact staysInRange_of_core hsat (hcore.eq_of_not not_false (s := ⟨rand,0,0⟩) fun _ => ⟨0,le_rfl,Nat.zero_le _⟩).2
  · intro s hs hcounter
    refine ⟨fun _ => ⟨s.genCounter,rfl,hs hcounter⟩,.inr fun type => inRange_of_lt hsizes ?_⟩
    exact (hs hcounter).lt hafford hcounter
  · intro s _ hcounter hless
    omega
  · intro s type hs hweight
    refine ⟨hs,fun f hf _ hcounter => ?_⟩
    obtain ⟨g,hg,hpaid⟩ := hs hcounter
    have hbefore : g + 1 ≤ 50 := hg.symm.trans_le hcounter
    have hless := counter_lt_of_function hsizes (hpaid.lt hafford (Nat.le_of_succ_le hbefore)) hweight
    exact hg ▸ hpaid.listed (hlisted f hf) hless

/-- A class `S` with a member function of six parameters. Each of its arguments can
be the result of such a call again. -/
def sixArgumentTypes : TypeSystem :=
  ((TypeSystem.construct (intConfig true) .initial).createFunctionType "m".toList 10 (List.replicate 6 10)
    (List.replicate 6 "p".toList)).createCompoundType "S".toList [(11,"m".toList)]

def sixArgumentScopes : ScopeTree := globalScope [⟨"s".toList,12,1⟩]

theorem sixArguments_sizes (k : TypeKind) :
    (collectAllVarDefinitionByType sixArgumentScopes sixArgumentTypes useNode k).size < 2^32 := by
  cases k <;> decide +kernel

theorem sixArguments_length {id : TypeID} {f : FunctionType} (h : sixArgumentTypes.getFunctionType id = some f) :
    f.argTypes.length = 6 := by
  have hown : sixArgumentTypes.own.function = (∅ : Std.TreeMap TypeID FunctionType).insert 11
      ⟨11,"m".toList,10,List.replicate 6 "p".toList,List.replicate 6 10⟩ := rfl
  rw [TypeTables.getFunctionType, sixArgumentTypes.statics_ok.function, hown, VectorMap.getElem?_insert_ite] at h
  by_cases hid : (11 : TypeID) = id
  · rw [if_pos hid] at h
    cases h
    rfl
  · simp [hid] at h

/-- 43 nested calls have 258 parameters. -/
theorem sixArguments_run : checkedExpression true sixArgumentScopes sixArgumentTypes useNode 10 (Stream'.const 7) =
    .error .contract := by
  have hrun : (checkedExpression true sixArgumentScopes sixArgumentTypes useNode 10 (Stream'.const 7)).map Prod.fst =
      .error .contract := by
    decide +kernel
  cases hchecked : checkedExpression true sixArgumentScopes sixArgumentTypes useNode 10 (Stream'.const 7) with
  | error f =>
    rw [hchecked] at hrun
    exact congrArg Except.error (Except.error.inj hrun)
  | ok r =>
    rw [hchecked] at hrun
    cases hrun

/-- Where no member function has more than `n` parameters, and the listed functions no
more either or as many as can be paid for, the weights stay in range in every run
exactly when `n` is at most five. -/
theorem weights_inRange_iff (n : ℕ) :
    (∀ (p : ℕ) (weak : Bool) (st : ScopeTree) (ts : TypeSystem) (ir : IRNode) (type : TypeID) (rand : Rand),
      p ≤ n ∨ Affordable n p → (∀ k, (collectAllVarDefinitionByType st ts ir k).size < 2^32) →
      (∀ f, MemberFunction ts (collectAllVarDefinitionByType st ts ir) f → f.argTypes.length ≤ n) →
      (∀ f, ListedFunction weak ts (collectAllVarDefinitionByType st ts ir) f → f.argTypes.length ≤ p) →
      StaysInRange weak st ts ir type rand) ↔ n ≤ 5 := by
  constructor
  · intro h
    by_contra hn
    apply h n true sixArgumentScopes sixArgumentTypes useNode 10 (Stream'.const 7) (.inl le_rfl) sixArguments_sizes
    · rintro f ⟨c,_,d,ct,_,_,id,_,hget⟩
      have hlength := sixArguments_length hget
      omega
    · rintro f ⟨t,id,_,hget⟩
      have hlength := sixArguments_length hget
      omega
    · exact sixArguments_run
  · intro hn p weak st ts ir type rand hp
    exact staysInRange_of_affordable (hp.elim (affordable_of_le hn) fun h => h)

theorem sixArguments_outOfRange :
    (∀ k, (collectAllVarDefinitionByType sixArgumentScopes sixArgumentTypes useNode k).size < 2^32) ∧
      ¬ StaysInRange true sixArgumentScopes sixArgumentTypes useNode 10 (Stream'.const 7) :=
  ⟨sixArguments_sizes,fun h => h sixArguments_run⟩

end Generator

end PolyGlot
