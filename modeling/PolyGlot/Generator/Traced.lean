import PolyGlot.Generator.Quiet
import PolyGlot.Support.Attempt

set_option autoImplicit false

/-! # The generator with its maps and its nodes

`generate_expression_by_type` as it stands in an object that was used before: the
maps are kept from one expression to the next, the node is a pointer that may be
null, and a generator that fails leaves its counters as they are. What the state
also keeps is how many calls got past the test of the counter, and which pointers
were followed.
-/
namespace PolyGlot

namespace Generator

open Prog TypeSystem

/-- The members of the object and the two static maps. `passed` counts the calls
that got past the test, and `dereferenced` has each pointer that was followed with
the number of calls that had then got past it. -/
structure RunState extends GenState where
  currentFixScope : Option ScopeID
  varMaps : VarMaps
  allSatisfiableTypes : Satisfiable
  passed : ℕ
  dereferenced : List (Option IRNode × ℕ)

abbrev Run := Attempt Fault RunState

def setGenState (g : GenState) (s : RunState) : RunState := { s with toGenState := g }

namespace Traced

def plainly {α : Type} (m : Gen α) : Run α := Attempt.onPart RunState.toGenState setGenState m

def deref (ir : Option IRNode) : Run IRNode := do
  modify fun s => { s with dereferenced := (ir,s.passed) :: s.dereferenced }
  match ir with
  | none => throw .nullDeref
  | some n => return n

section Handlers
variable (weak : Bool) (ts : TypeSystem) (core : TypeID → Option IRNode → Run Str)

def appendArguments (ir : Option IRNode) : List TypeID → Str → Run Str
  | [], res => return res
  | k :: ks, res => do
    let arg ← core k ir
    appendArguments ir ks (res ++ arg ++ [','])

def functionCallGenHandler (functionMap : VectorMap TypeID Str) (ir : Option IRNode) : Run Str := do
  let _ ← plainly (assertThat (functionMap.size ≠ 0) .assertion)
  let pickFunc ← plainly (randomPick functionMap.toList)
  match ts.getFunctionType pickFunc.1 with
  | none => throw .assertion
  | some choice => do
    modify fun s => { s with functionGenCounter := s.functionGenCounter + choice.argTypes.length }
    let res ← appendArguments core ir choice.argTypes (choice.name ++ ['('])
    return closeArguments res

def memberLoop (search : TypeID → Finset TypeID → Run (Str × Finset TypeID)) (targetType : TypeID) :
    List (TypeID × List Str) → Found → Run Found
  | [], found => return found
  | member :: rest, found =>
    if ts.isCompoundType member.1 then
      if member.1 ∈ found.visit then memberLoop search targetType rest found
      else do
        let tmpRes ← search member.1 found.visit
        let found := { found with visit := tmpRes.2 }
        if tmpRes.1 = [] then memberLoop search targetType rest found
        else do
          let name ← plainly (randomPick member.2)
          memberLoop search targetType rest { found with allSol := found.allSol ++ [memberStr ++ name ++ tmpRes.1] }
    else if ts.isFunctionType member.1 then
      if member.1 = targetType then do
        let name ← plainly (randomPick member.2)
        memberLoop search targetType rest { found with allSol := found.allSol ++ [memberStr ++ name] }
      else match ts.getFunctionType member.1 with
        | none => throw .nullDeref
        | some pfunc =>
          if pfunc.returnType ≠ targetType then memberLoop search targetType rest found
          else memberLoop search targetType rest { found with funcSol := found.funcSol ++ [pfunc] }
    else memberLoop search targetType rest found

def callMember (funcSol : List FunctionType) : Run Str := do
  let pfunc ← plainly (randomPick funcSol)
  let res ← functionCallGenHandler ts core ((∅ : VectorMap TypeID Str).push pfunc.typeId pfunc.name) none
  return memberStr ++ res

def pickSolution (allSol : List Str) (funcSol : List FunctionType) : Run Str :=
  if allSol ≠ [] ∧ funcSol = [] then plainly (randomPick allSol)
  else if allSol = [] ∧ funcSol ≠ [] then callMember ts core funcSol
  else if allSol ≠ [] ∧ funcSol ≠ [] then do
    let coin ← plainly (getRandInt 2)
    if coin ≠ 0 then callMember ts core funcSol else plainly (randomPick allSol)
  else return []

def getClassMemberByTypeNoDuplicate (targetType : TypeID) : ℕ → TypeID → Finset TypeID → Run (Str × Finset TypeID)
  | 0, _, _ => throw .outOfFuel
  | fuel + 1, type, visit =>
    match ts.getCompoundType type with
    | none => throw .nullDeref
    | some typePtr => do
      let direct ← plainly (directMembers targetType typePtr.members.toList)
      let found ← memberLoop ts (getClassMemberByTypeNoDuplicate targetType fuel) targetType typePtr.members.toList
        ⟨direct,[],insert type visit⟩
      let res ← pickSolution ts core found.allSol found.funcSol
      return (res,found.visit)

def getClassMemberByType (type targetType : TypeID) : Run Str := do
  let res ← getClassMemberByTypeNoDuplicate ts core targetType (ts.own.compound.size + ts.statics.compound.size + 1) type ∅
  return res.1

def structureMemberGenHandler (compoundVarMap : VectorMap TypeID Str) (memberType : TypeID) : Run Str := do
  let compound ← plainly (randomPick compoundVarMap.toList)
  let _ ← plainly (assertThat (compound.2 ≠ []) .assertion)
  let compoundVar ← plainly (randomPick compound.2)
  let res ← getClassMemberByType ts core compound.1 memberType
  if res = [] then do
    let _ ← plainly (assertThat (memberType = compound.1) .assertion)
    plainly (wholeVariable weak ts compound.1 compoundVar)
  else return compoundVar ++ res

def makeValue (varMaps : VarMaps) (allSatisfiableTypes : Satisfiable) (type : TypeID) (ir : Option IRNode) : Run Str :=
  let simpleVarMap := usable varMaps allSatisfiableTypes type .simple
  let compoundVarMap := usable varMaps allSatisfiableTypes type .compound
  let functionMap := usable varMaps allSatisfiableTypes type .function
  if functionMap.size + compoundVarMap.size + simpleVarMap.size = 0 then plainly genRandomNumString
  else do
    let s ← get
    let w := weights ts varMaps allSatisfiableTypes s.toGenState type
    if w.total = 0 then plainly genRandomNumString
    else do
      let choice ← plainly (getRandInt w.total)
      if choice < w.expression then throw .assertion
      else if choice - w.expression < w.function then functionCallGenHandler ts core functionMap ir
      else if choice - w.expression - w.function < w.compound then
        structureMemberGenHandler weak ts core compoundVarMap type
      else do
        let _ ← plainly (assertThat (simpleVarMap.vals type ≠ []) .assertion)
        plainly (randomPick (simpleVarMap.vals type))

end Handlers

section Core
variable (weak : Bool) (st : ScopeTree) (ts : TypeSystem)

/-- The maps are collected when the first value is begun, unless they are those of
the scope. -/
def collectMaps (ir : Option IRNode) : Run Unit := do
  let s ← get
  if s.genCounter = 0 then do
    let n ← deref ir
    if s.currentFixScope ≠ some n.scopeId then do
      let n ← deref ir
      modify fun s => { s with currentFixScope := some n.scopeId, varMaps := .empty, allSatisfiableTypes := ∅ }
      let cur ← deref ir
      let varMaps := collectAllVarDefinitionByType st ts cur
      modify fun s => { s with varMaps := varMaps }
      match collectSatisfiableTypes weak ts varMaps with
      | .error f => throw f
      | .ok allSatisfiableTypes => modify fun s => { s with allSatisfiableTypes := allSatisfiableTypes }
    else return ()
  else return ()

def generateOnce (core : TypeID → Option IRNode → Run Str) (type : TypeID) (ir : Option IRNode) : Run Str := do
  modify fun s => { s with genCounter := s.genCounter + 1, passed := s.passed + 1 }
  let s ← get
  let _ ← plainly (onlyIf (weak = false) (updatePointerVar s.varMaps))
  let type ← plainly (pickType ts s.allSatisfiableTypes type)
  if type ∈ s.allSatisfiableTypes then makeValue weak ts core s.varMaps s.allSatisfiableTypes type ir
  else plainly genRandomNumString

def generateExpressionByTypeCore : ℕ → TypeID → Option IRNode → Run Str
  | 0, _, _ => throw .outOfFuel
  | fuel + 1, type, ir => do
    let _ ← collectMaps weak st ts ir
    let s ← get
    if s.genCounter > 50 then plainly genRandomNumString
    else generateOnce weak ts (generateExpressionByTypeCore fuel) type ir

/-- `generate_expression_by_type`, in an object that may have been used before. -/
def generateExpressionByType (type : TypeID) (ir : IRNode) : Run Str := do
  modify fun s => { s with genCounter := 0, functionGenCounter := 0, passed := 0, dereferenced := [] }
  let res ← generateExpressionByTypeCore weak st ts 52 type (some ir)
  if res = [] then throw .assertion else return res

end Core

structure Plain {α : Type} (m : Gen α) (Q : α → Prop) : Prop where
  ensures : ∀ c, EnsuresOr (· ≠ .outOfFuel) (fun g : GenState => g.genCounter = c) m Q

theorem Plain.of_quiet {α : Type} {m : Gen α} {Q : α → Prop} (h : Quiet m Q) : Plain m Q :=
  ⟨fun _ => h.ensuresOr (fun _ he => he.2) fun _ _ hs => hs⟩

/-- At least `n` values were begun and at most 51, each of them by a call that got
past the test, and only the node was followed, before the first of them. -/
structure Within (ir : IRNode) (n : ℕ) (s : RunState) : Prop where
  begun : n ≤ s.genCounter
  most : s.genCounter ≤ 51
  passed : s.passed = s.genCounter
  first : ∀ e ∈ s.dereferenced, e = (some ir,0)

section Handlers
variable {ir : IRNode} {n : ℕ} {weak : Bool} {ts : TypeSystem} {targetType : TypeID}

theorem plainly_sustains {α : Type} {m : Gen α} {Q : α → Prop} (h : Quiet m Q) :
    Attempt.Sustains (· ≠ .outOfFuel) (Within ir n) (plainly m) Q := by
  apply Attempt.Sustains.onPart (K := fun g s => g.genCounter = s.genCounter)
  · exact fun s _ => (Plain.of_quiet h).ensures s.genCounter
  · exact fun _ _ => rfl
  · intro s g hs hg
    exact ⟨hg ▸ hs.begun,hg ▸ hs.most,hs.passed.trans hg.symm,hs.first⟩

variable {core : TypeID → Option IRNode → Run Str}
  (hcore : ∀ k i, Attempt.Sustains (· ≠ .outOfFuel) (Within ir n) (core k i) fun _ => True)
include hcore

theorem appendArguments_sustains (i : Option IRNode) (ks : List TypeID) (res : Str) :
    Attempt.Sustains (· ≠ .outOfFuel) (Within ir n) (appendArguments core i ks res) fun _ => True := by
  induction ks generalizing res with
  | nil => exact .pure True.intro
  | cons k ks ih =>
    unfold appendArguments
    exact (hcore k i).bind fun arg _ => ih _

theorem functionCallGenHandler_sustains (functionMap : VectorMap TypeID Str) (i : Option IRNode) :
    Attempt.Sustains (· ≠ .outOfFuel) (Within ir n) (functionCallGenHandler ts core functionMap i) fun _ => True := by
  unfold functionCallGenHandler
  apply (plainly_sustains (Quiet.assertThat (by decide))).bind
  intro _ _
  apply (plainly_sustains (randomPick_quiet _)).bind
  intro pickFunc _
  split
  · exact .throw (by decide)
  · apply Attempt.Sustains.modify_bind
    · exact fun s hs => ⟨hs.begun,hs.most,hs.passed,hs.first⟩
    · exact (appendArguments_sustains hcore _ _ _).bind fun res _ => .pure True.intro

theorem callMember_sustains (funcSol : List FunctionType) :
    Attempt.Sustains (· ≠ .outOfFuel) (Within ir n) (callMember ts core funcSol) fun _ => True := by
  unfold callMember
  apply (plainly_sustains (randomPick_quiet _)).bind
  intro pfunc _
  exact (functionCallGenHandler_sustains hcore _ _).bind fun res _ => .pure True.intro

theorem pickSolution_sustains (allSol : List Str) (funcSol : List FunctionType) :
    Attempt.Sustains (· ≠ .outOfFuel) (Within ir n) (pickSolution ts core allSol funcSol) fun _ => True := by
  have hpick : Attempt.Sustains (· ≠ .outOfFuel) (Within ir n) (plainly (randomPick allSol)) fun _ => True :=
    plainly_sustains ((randomPick_quiet allSol).mono fun _ _ => True.intro)
  have hcall : Attempt.Sustains (· ≠ .outOfFuel) (Within ir n) (callMember ts core funcSol) fun _ => True :=
    callMember_sustains hcore funcSol
  unfold pickSolution
  apply Attempt.Sustains.ite
  · exact fun _ => hpick
  · intro _
    apply Attempt.Sustains.ite
    · exact fun _ => hcall
    · intro _
      apply Attempt.Sustains.ite
      · intro _
        apply (plainly_sustains (getRandInt_quiet 2)).bind
        intro coin _
        exact .ite (fun _ => hcall) fun _ => hpick
      · exact fun _ => .pure True.intro

omit hcore in
/-- A search that only adds to the types visited, and has fuel for those that are left. -/
theorem memberLoop_sustains {fuel : ℕ} {search : TypeID → Finset TypeID → Run (Str × Finset TypeID)}
    (hsearch : ∀ d visit, d ∉ visit → (ts.ids \ visit).card < fuel →
      Attempt.Sustains (· ≠ .outOfFuel) (Within ir n) (search d visit) fun r => visit ⊆ r.2)
    (members : List (TypeID × List Str)) (found : Found) (hfuel : (ts.ids \ found.visit).card < fuel) :
    Attempt.Sustains (· ≠ .outOfFuel) (Within ir n) (memberLoop ts search targetType members found)
      fun found' => found.visit ⊆ found'.visit := by
  induction members generalizing found with
  | nil => exact .pure (Finset.Subset.refl _)
  | cons member rest ih =>
    unfold memberLoop
    apply Attempt.Sustains.ite
    · intro _
      apply Attempt.Sustains.ite
      · exact fun _ => ih found hfuel
      · intro hnew
        apply (hsearch member.1 found.visit hnew hfuel).bind
        intro r hr
        have hnext : ∀ found₁ : Found, found₁.visit = r.2 → Attempt.Sustains (· ≠ .outOfFuel) (Within ir n)
            (memberLoop ts search targetType rest found₁) fun found' => found.visit ⊆ found'.visit := by
          intro found₁ hvisit
          apply (ih found₁ (hvisit ▸ lt_of_le_of_lt (Search.card_unvisited_le hr) hfuel)).mono
          intro found' hsub
          exact hr.trans (hvisit ▸ hsub)
        apply Attempt.Sustains.ite
        · exact fun _ => hnext _ rfl
        · intro _
          apply (plainly_sustains (randomPick_quiet _)).bind
          exact fun name _ => hnext _ rfl
    · intro _
      apply Attempt.Sustains.ite
      · intro _
        apply Attempt.Sustains.ite
        · intro _
          apply (plainly_sustains (randomPick_quiet _)).bind
          exact fun name _ => ih _ hfuel
        · intro _
          split
          · exact .throw (by decide)
          · exact .ite (fun _ => ih _ hfuel) fun _ => ih _ hfuel
      · exact fun _ => ih found hfuel

/-- The search visits every compound type at most once, and so ends on every graph
of types. -/
theorem getClassMemberByTypeNoDuplicate_sustains {fuel : ℕ} (c : TypeID) (visit : Finset TypeID) (hnew : c ∉ visit)
    (hfuel : (ts.ids \ visit).card < fuel) :
    Attempt.Sustains (· ≠ .outOfFuel) (Within ir n) (getClassMemberByTypeNoDuplicate ts core targetType fuel c visit)
      fun r => visit ⊆ r.2 := by
  induction fuel generalizing c visit with
  | zero => omega
  | succ fuel ih =>
    unfold getClassMemberByTypeNoDuplicate
    cases hct : ts.getCompoundType c with
    | none => exact .throw (by decide)
    | some ct =>
      have hless := Search.card_unvisited_insert (mem_ids (isCompoundType_iff.mpr ⟨ct,hct⟩)) hnew
      apply (plainly_sustains (directMembers_quiet _ _)).bind
      intro direct _
      apply (memberLoop_sustains ih ct.members.toList ⟨direct,[],insert c visit⟩ (by simp only; omega)).bind
      intro found hfound
      apply (pickSolution_sustains hcore _ _).bind
      intro res _
      exact .pure ((Finset.subset_insert c visit).trans hfound)

theorem getClassMemberByType_sustains (c : TypeID) : Attempt.Sustains (· ≠ .outOfFuel) (Within ir n)
    (getClassMemberByType ts core c targetType) fun _ => True := by
  have hfuel : (ts.ids \ ∅).card < ts.own.compound.size + ts.statics.compound.size + 1 := by
    rw [Finset.sdiff_empty]
    exact Nat.lt_succ_of_le card_ids
  unfold getClassMemberByType
  apply (getClassMemberByTypeNoDuplicate_sustains hcore c ∅ (Finset.notMem_empty c) hfuel).bind
  exact fun r _ => .pure True.intro

theorem structureMemberGenHandler_sustains (compoundVarMap : VectorMap TypeID Str) (memberType : TypeID) :
    Attempt.Sustains (· ≠ .outOfFuel) (Within ir n) (structureMemberGenHandler weak ts core compoundVarMap memberType)
      fun _ => True := by
  unfold structureMemberGenHandler
  apply (plainly_sustains (randomPick_quiet _)).bind
  intro compound _
  apply (plainly_sustains (Quiet.assertThat (by decide))).bind
  intro _ _
  apply (plainly_sustains (randomPick_quiet _)).bind
  intro compoundVar _
  apply (getClassMemberByType_sustains hcore _).bind
  intro res _
  apply Attempt.Sustains.ite
  · intro _
    apply (plainly_sustains (Quiet.assertThat (by decide))).bind
    exact fun _ _ => plainly_sustains (wholeVariable_quiet ..)
  · exact fun _ => .pure True.intro

theorem makeValue_sustains (varMaps : VarMaps) (sat : Satisfiable) (type : TypeID) (i : Option IRNode) :
    Attempt.Sustains (· ≠ .outOfFuel) (Within ir n) (makeValue weak ts core varMaps sat type i) fun _ => True := by
  unfold makeValue
  apply Attempt.Sustains.ite
  · exact fun _ => plainly_sustains genRandomNumString_quiet
  · intro _
    apply Attempt.Sustains.get_bind
    intro s _
    apply Attempt.Sustains.ite
    · exact fun _ => plainly_sustains genRandomNumString_quiet
    · intro _
      apply (plainly_sustains (getRandInt_quiet _)).bind
      intro choice _
      apply Attempt.Sustains.ite
      · exact fun _ => .throw (by decide)
      · intro _
        apply Attempt.Sustains.ite
        · exact fun _ => functionCallGenHandler_sustains hcore _ _
        · intro _
          apply Attempt.Sustains.ite
          · exact fun _ => structureMemberGenHandler_sustains hcore _ _
          · intro _
            apply (plainly_sustains (Quiet.assertThat (by decide))).bind
            exact fun _ _ => plainly_sustains ((randomPick_quiet _).mono fun _ _ => True.intro)

end Handlers

section Core
variable {ir : IRNode} {n : ℕ} {weak : Bool} {st : ScopeTree} {ts : TypeSystem}

/-- Once a value was begun no map is collected and no node is followed. -/
theorem collectMaps_begun {i : Option IRNode} {s : RunState} (h : s.genCounter ≠ 0) :
    (collectMaps weak st ts i).run s = (.ok (),s) := by
  unfold collectMaps
  change Attempt.run (if s.genCounter = 0 then _ else _) s = _
  rw [if_neg h]
  rfl

/-- The test of the counter comes once the maps are there. -/
theorem generateExpressionByTypeCore_tested {fuel : ℕ} {type : TypeID} {i : Option IRNode} {s t : RunState}
    (hmaps : (collectMaps weak st ts i).run s = (.ok (),t)) :
    (generateExpressionByTypeCore weak st ts (fuel + 1) type i).run s =
      if t.genCounter > 50 then (plainly genRandomNumString).run t
      else (generateOnce weak ts (generateExpressionByTypeCore weak st ts fuel) type i).run t := by
  rw [generateExpressionByTypeCore, Attempt.run_bind, hmaps]
  change Attempt.run (if t.genCounter > 50 then _ else _) t = _
  split <;> rfl

/-- A call that gets past the test is one more. -/
theorem generateOnce_ended {core : TypeID → Option IRNode → Run Str}
    (hcore : ∀ k i, Attempt.Sustains (· ≠ .outOfFuel) (Within ir (n + 1)) (core k i) fun _ => True) {s : RunState}
    (hs : Within ir n s) (hcounter : s.genCounter ≤ 50) (type : TypeID) (i : Option IRNode) :
    Attempt.Ended (· ≠ .outOfFuel) (Within ir (n + 1)) (fun _ => True) ((generateOnce weak ts core type i).run s) := by
  have hrest : Attempt.Sustains (· ≠ .outOfFuel) (Within ir (n + 1)) (do
      let s ← get
      let _ ← plainly (onlyIf (weak = false) (updatePointerVar s.varMaps))
      let type ← plainly (pickType ts s.allSatisfiableTypes type)
      if type ∈ s.allSatisfiableTypes then makeValue weak ts core s.varMaps s.allSatisfiableTypes type i
      else plainly genRandomNumString : Run Str) fun _ => True := by
    apply Attempt.Sustains.get_bind
    intro t _
    apply (plainly_sustains (Quiet.onlyIf (updatePointerVar_quiet _))).bind
    intro _ _
    apply (plainly_sustains (pickType_quiet ..)).bind
    intro type _
    exact .ite (fun _ => makeValue_sustains hcore ..) fun _ => plainly_sustains genRandomNumString_quiet
  rw [generateOnce, Attempt.run_modify_bind]
  exact hrest.ended { s with genCounter := s.genCounter + 1, passed := s.passed + 1 }
    ⟨Nat.succ_le_succ hs.begun,Nat.succ_le_succ hcounter,congrArg (· + 1) hs.passed,hs.first⟩

/-- The counter bounds how deep the calls are nested: where `n` values were begun,
`52 - n` nested calls are enough. -/
theorem generateExpressionByTypeCore_sustains {fuel : ℕ} (hn : n ≠ 0) (hfuel : 52 ≤ n + fuel) (type : TypeID)
    (i : Option IRNode) : Attempt.Sustains (· ≠ .outOfFuel) (Within ir n)
      (generateExpressionByTypeCore weak st ts fuel type i) fun _ => True := by
  induction fuel generalizing n type i with
  | zero =>
    constructor
    intro s hs
    have hbegun := hs.begun
    have hmost := hs.most
    omega
  | succ fuel ih =>
    constructor
    intro s hs
    have hbegun : s.genCounter ≠ 0 := by
      have h := hs.begun
      omega
    rw [generateExpressionByTypeCore_tested (collectMaps_begun hbegun)]
    by_cases hcounter : s.genCounter > 50
    · rw [if_pos hcounter]
      exact (plainly_sustains genRandomNumString_quiet).ended s hs
    · rw [if_neg hcounter]
      apply (generateOnce_ended (fun k i => ih (by omega) (by omega) k i) hs (by omega) type i).mono
      · exact fun t ht => ⟨Nat.le_of_succ_le ht.begun,ht.most,ht.passed,ht.first⟩
      · exact fun _ h => h

structure Fresh (ir : IRNode) (s : RunState) : Prop where
  counter : s.genCounter = 0
  passed : s.passed = 0
  first : ∀ e ∈ s.dereferenced, e = (some ir,0)

theorem deref_sustains : Attempt.Sustains (· ≠ .outOfFuel) (Fresh ir) (deref (some ir)) (· = ir) := by
  unfold deref
  apply Attempt.Sustains.modify_bind
  · intro s hs
    refine ⟨hs.counter,hs.passed,fun e he => ?_⟩
    rcases List.mem_cons.mp he with rfl | he
    · rw [hs.passed]
    · exact hs.first e he
  · exact .pure rfl

theorem collectMaps_sustains : Attempt.Sustains (· ≠ .outOfFuel) (Fresh ir) (collectMaps weak st ts (some ir))
    fun _ => True := by
  unfold collectMaps
  apply Attempt.Sustains.get_bind
  intro s _
  apply Attempt.Sustains.ite
  · intro _
    apply deref_sustains.bind
    rintro m rfl
    apply Attempt.Sustains.ite
    · intro _
      apply deref_sustains.bind
      rintro m rfl
      apply Attempt.Sustains.modify_bind fun s hs => ⟨hs.counter,hs.passed,hs.first⟩
      apply deref_sustains.bind
      rintro m rfl
      apply Attempt.Sustains.modify_bind fun s hs => ⟨hs.counter,hs.passed,hs.first⟩
      obtain ⟨sat,hsat,_⟩ := collected_satisfiable weak st ts m
      rw [hsat]
      exact .modify (fun s hs => ⟨hs.counter,hs.passed,hs.first⟩) True.intro
    · exact fun _ => .pure True.intro
  · exact fun _ => .pure True.intro

/-- The outermost call. -/
theorem generateExpressionByTypeCore_fresh {fuel : ℕ} (hfuel : 51 ≤ fuel) (type : TypeID) {t : RunState} (ht : Fresh ir t) :
    Attempt.Ended (· ≠ .outOfFuel) (Within ir 0) (fun _ => True)
      ((generateExpressionByTypeCore weak st ts (fuel + 1) type (some ir)).run t) := by
  have hmaps : Attempt.Ended (· ≠ .outOfFuel) (Fresh ir) (fun _ => True) ((collectMaps weak st ts (some ir)).run t) :=
    collectMaps_sustains.ended t ht
  cases hrun : (collectMaps weak st ts (some ir)).run t with
  | mk r u =>
    rw [hrun] at hmaps
    have hu : Within ir 0 u := by
      refine ⟨Nat.zero_le _,?_,hmaps.state.passed.trans hmaps.state.counter.symm,hmaps.state.first⟩
      rw [hmaps.state.counter]
      exact Nat.zero_le _
    cases r with
    | error e =>
      rw [generateExpressionByTypeCore, Attempt.run_bind, hrun]
      exact .error hu (hmaps.fails e rfl)
    | ok _ =>
      have hcounter : u.genCounter = 0 := hmaps.state.counter
      rw [generateExpressionByTypeCore_tested hrun, if_neg (by omega)]
      apply (generateOnce_ended (fun k i => generateExpressionByTypeCore_sustains one_ne_zero (by omega) k i) hu (by omega)
        type (some ir)).mono
      · exact fun t ht => ⟨Nat.zero_le _,ht.most,ht.passed,ht.first⟩
      · exact fun _ h => h

/-- On every type system, with every maps and for all random values, the generator
comes to an end: at most 51 calls get past the test, and the only pointer that is
followed is that to the node, before the first of them. -/
theorem generateExpressionByType_ends (weak : Bool) (st : ScopeTree) (ts : TypeSystem) (type : TypeID) (ir : IRNode)
    (s : RunState) :
    ((generateExpressionByType weak st ts type ir).run s).1 ≠ .error .outOfFuel ∧
    ((generateExpressionByType weak st ts type ir).run s).2.passed ≤ 51 ∧
    ∀ e ∈ ((generateExpressionByType weak st ts type ir).run s).2.dereferenced, e = (some ir,0) := by
  have hcore := @generateExpressionByTypeCore_fresh ir weak st ts 51 le_rfl type
    { s with genCounter := 0, functionGenCounter := 0, passed := 0, dereferenced := [] } ⟨rfl,rfl,by simp⟩
  have hrun : Attempt.Ended (· ≠ .outOfFuel) (Within ir 0) (fun _ => True)
      ((generateExpressionByType weak st ts type ir).run s) := by
    unfold generateExpressionByType
    rw [Attempt.run_modify_bind, Attempt.run_bind]
    generalize generateExpressionByTypeCore weak st ts 52 type (some ir) = core at hcore
    cases hc : core.run { s with genCounter := 0, functionGenCounter := 0, passed := 0, dereferenced := [] } with
    | mk r t =>
      rw [hc] at hcore
      cases r with
      | error e => exact hcore
      | ok res =>
        by_cases hres : res = []
        · simp only [if_pos hres]
          exact .error hcore.state (by decide)
        · simp only [if_neg hres]
          exact .ok hcore.state True.intro
  refine ⟨fun h => hrun.fails _ h rfl,?_,hrun.state.first⟩
  rw [hrun.state.passed]
  exact hrun.state.most

end Core

structure Settled (m : VarMaps) (sat : Satisfiable) (s : RunState) : Prop where
  varMaps : s.varMaps = m
  allSatisfiableTypes : s.allSatisfiableTypes = sat
  begun : s.genCounter ≠ 0

section Mirrors
variable {m : VarMaps} {sat : Satisfiable} {weak : Bool} {st : ScopeTree} {ts : TypeSystem} {targetType : TypeID}

theorem plainly_mirrors {α : Type} {p : Gen α} {Q : α → Prop} (h : Quiet p Q) :
    Attempt.Mirrors RunState.toGenState (Settled m sat) (plainly p) p := by
  apply Attempt.Mirrors.onPart
  · exact fun _ _ => rfl
  · intro s a g hs hrun
    have hcounter : g.genCounter = s.genCounter := (((Plain.of_quiet h).ensures s.genCounter).returns s.toGenState a g rfl hrun).2
    exact ⟨hs.varMaps,hs.allSatisfiableTypes,hcounter ▸ hs.begun⟩

variable {core : TypeID → Option IRNode → Run Str} {core' : TypeID → Gen Str}
  (hcore : ∀ k i, Attempt.Mirrors RunState.toGenState (Settled m sat) (core k i) (core' k))
include hcore

theorem appendArguments_mirrors (i : Option IRNode) (ks : List TypeID) (res : Str) :
    Attempt.Mirrors RunState.toGenState (Settled m sat) (appendArguments core i ks res)
      (Generator.appendArguments core' ks res) := by
  induction ks generalizing res with
  | nil => exact .pure res
  | cons k ks ih =>
    unfold appendArguments Generator.appendArguments
    exact (hcore k i).bind fun arg => ih _

theorem functionCallGenHandler_mirrors (functionMap : VectorMap TypeID Str) (i : Option IRNode) :
    Attempt.Mirrors RunState.toGenState (Settled m sat) (functionCallGenHandler ts core functionMap i)
      (Generator.functionCallGenHandler ts core' functionMap) := by
  unfold functionCallGenHandler Generator.functionCallGenHandler
  apply (plainly_mirrors (Quiet.assertThat (by decide))).bind
  intro _
  apply (plainly_mirrors (randomPick_quiet _)).bind
  intro pickFunc
  cases ts.getFunctionType pickFunc.1 with
  | none => exact .throw _
  | some choice =>
    apply Attempt.Mirrors.modify_bind
    · exact fun s hs => ⟨⟨hs.varMaps,hs.allSatisfiableTypes,hs.begun⟩,rfl⟩
    · exact (appendArguments_mirrors hcore _ _ _).bind fun res => .pure _

theorem callMember_mirrors (funcSol : List FunctionType) : Attempt.Mirrors RunState.toGenState (Settled m sat)
    (callMember ts core funcSol) (Generator.callMember ts core' funcSol) := by
  unfold callMember Generator.callMember
  apply (plainly_mirrors (randomPick_quiet _)).bind
  intro pfunc
  exact (functionCallGenHandler_mirrors hcore _ _).bind fun res => .pure _

theorem pickSolution_mirrors (allSol : List Str) (funcSol : List FunctionType) :
    Attempt.Mirrors RunState.toGenState (Settled m sat) (pickSolution ts core allSol funcSol)
      (Generator.pickSolution ts core' allSol funcSol) := by
  have hpick : Attempt.Mirrors RunState.toGenState (Settled m sat) (plainly (randomPick allSol)) (randomPick allSol) :=
    plainly_mirrors (randomPick_quiet allSol)
  have hcall : Attempt.Mirrors RunState.toGenState (Settled m sat) (callMember ts core funcSol)
      (Generator.callMember ts core' funcSol) := callMember_mirrors hcore funcSol
  unfold pickSolution Generator.pickSolution
  refine .ite (fun _ => hpick) fun _ => .ite (fun _ => hcall) fun _ => .ite (fun _ => ?_) fun _ => .pure []
  apply (plainly_mirrors (getRandInt_quiet 2)).bind
  exact fun coin => .ite (fun _ => hcall) fun _ => hpick

omit hcore in
theorem memberLoop_mirrors {search : TypeID → Finset TypeID → Run (Str × Finset TypeID)}
    {search' : TypeID → Finset TypeID → Gen (Str × Finset TypeID)}
    (hsearch : ∀ d visit, Attempt.Mirrors RunState.toGenState (Settled m sat) (search d visit) (search' d visit))
    (members : List (TypeID × List Str)) (found : Found) : Attempt.Mirrors RunState.toGenState (Settled m sat)
      (memberLoop ts search targetType members found) (Generator.memberLoop ts search' targetType members found) := by
  induction members generalizing found with
  | nil => exact .pure found
  | cons member rest ih =>
    unfold memberLoop Generator.memberLoop
    apply Attempt.Mirrors.ite
    · intro _
      apply Attempt.Mirrors.ite
      · exact fun _ => ih found
      · intro _
        apply (hsearch member.1 found.visit).bind
        intro r
        apply Attempt.Mirrors.ite
        · exact fun _ => ih _
        · intro _
          apply (plainly_mirrors (randomPick_quiet _)).bind
          exact fun name => ih _
    · intro _
      apply Attempt.Mirrors.ite
      · intro _
        apply Attempt.Mirrors.ite
        · intro _
          apply (plainly_mirrors (randomPick_quiet _)).bind
          exact fun name => ih _
        · intro _
          cases ts.getFunctionType member.1 with
          | none => exact .throw _
          | some pfunc => exact .ite (fun _ => ih _) fun _ => ih _
      · exact fun _ => ih found

theorem getClassMemberByType_mirrors (c : TypeID) : Attempt.Mirrors RunState.toGenState (Settled m sat)
    (getClassMemberByType ts core c targetType) (Generator.getClassMemberByType ts core' c targetType) := by
  have hsearch : ∀ (fuel : ℕ) (c : TypeID) (visit : Finset TypeID), Attempt.Mirrors RunState.toGenState (Settled m sat)
      (getClassMemberByTypeNoDuplicate ts core targetType fuel c visit)
      (Generator.getClassMemberByTypeNoDuplicate ts core' targetType fuel c visit) := by
    intro fuel
    induction fuel with
    | zero => exact fun c visit => .throw _
    | succ fuel ih =>
      intro c visit
      unfold getClassMemberByTypeNoDuplicate Generator.getClassMemberByTypeNoDuplicate
      cases ts.getCompoundType c with
      | none => exact .throw _
      | some ct =>
        apply (plainly_mirrors (directMembers_quiet _ _)).bind
        intro direct
        apply (memberLoop_mirrors ih _ _).bind
        intro found
        exact (pickSolution_mirrors hcore _ _).bind fun res => .pure _
  unfold getClassMemberByType Generator.getClassMemberByType
  exact (hsearch _ c ∅).bind fun r => .pure _

theorem structureMemberGenHandler_mirrors (compoundVarMap : VectorMap TypeID Str) (memberType : TypeID) :
    Attempt.Mirrors RunState.toGenState (Settled m sat) (structureMemberGenHandler weak ts core compoundVarMap memberType)
      (Generator.structureMemberGenHandler weak ts core' compoundVarMap memberType) := by
  unfold structureMemberGenHandler Generator.structureMemberGenHandler
  apply (plainly_mirrors (randomPick_quiet _)).bind
  intro compound
  apply (plainly_mirrors (Quiet.assertThat (by decide))).bind
  intro _
  apply (plainly_mirrors (randomPick_quiet _)).bind
  intro compoundVar
  apply (getClassMemberByType_mirrors hcore _).bind
  intro res
  apply Attempt.Mirrors.ite
  · intro _
    apply (plainly_mirrors (Quiet.assertThat (by decide))).bind
    exact fun _ => plainly_mirrors (wholeVariable_quiet ..)
  · exact fun _ => .pure _

theorem makeValue_mirrors (type : TypeID) (i : Option IRNode) : Attempt.Mirrors RunState.toGenState (Settled m sat)
    (makeValue weak ts core m sat type i) (Generator.makeValue weak ts m sat core' type) := by
  unfold makeValue Generator.makeValue
  apply Attempt.Mirrors.ite
  · exact fun _ => plainly_mirrors genRandomNumString_quiet
  · intro _
    apply Attempt.Mirrors.get_bind
    intro s _
    apply Attempt.Mirrors.ite
    · exact fun _ => plainly_mirrors genRandomNumString_quiet
    · intro _
      apply (plainly_mirrors (getRandInt_quiet _)).bind
      intro choice
      apply Attempt.Mirrors.ite
      · exact fun _ => .throw _
      · intro _
        apply Attempt.Mirrors.ite
        · exact fun _ => functionCallGenHandler_mirrors hcore _ _
        · intro _
          apply Attempt.Mirrors.ite
          · exact fun _ => structureMemberGenHandler_mirrors hcore _ _
          · intro _
            apply (plainly_mirrors (Quiet.assertThat (by decide))).bind
            exact fun _ => plainly_mirrors (randomPick_quiet _)

/-- What a call does once it has counted itself. -/
theorem afterTest_mirrors (type : TypeID) (i : Option IRNode) : Attempt.Mirrors RunState.toGenState (Settled m sat) (do
      let s ← get
      let _ ← plainly (onlyIf (weak = false) (updatePointerVar s.varMaps))
      let type ← plainly (pickType ts s.allSatisfiableTypes type)
      if type ∈ s.allSatisfiableTypes then makeValue weak ts core s.varMaps s.allSatisfiableTypes type i
      else plainly genRandomNumString : Run Str) (do
      onlyIf (weak = false) (updatePointerVar m)
      let type ← pickType ts sat type
      if type ∈ sat then Generator.makeValue weak ts m sat core' type
      else genRandomNumString : Gen Str) := by
  apply Attempt.Mirrors.get_left
  intro s hs
  rw [hs.varMaps, hs.allSatisfiableTypes]
  apply (plainly_mirrors (Quiet.onlyIf (updatePointerVar_quiet _))).bind
  intro _
  apply (plainly_mirrors (pickType_quiet ..)).bind
  intro type
  exact .ite (fun _ => makeValue_mirrors hcore type i) fun _ => plainly_mirrors genRandomNumString_quiet

omit hcore in
theorem generateExpressionByTypeCore_mirrors (fuel : ℕ) (type : TypeID) (i : Option IRNode) :
    Attempt.Mirrors RunState.toGenState (Settled m sat) (generateExpressionByTypeCore weak st ts fuel type i)
      (Generator.generateExpressionByTypeCore weak ts m sat fuel type) := by
  induction fuel generalizing type i with
  | zero => exact .throw _
  | succ fuel ih =>
    have htest : Attempt.Mirrors RunState.toGenState (Settled m sat) (do
        let s ← get
        if s.genCounter > 50 then plainly genRandomNumString
        else generateOnce weak ts (generateExpressionByTypeCore weak st ts fuel) type i : Run Str)
        (Generator.generateExpressionByTypeCore weak ts m sat (fuel + 1) type) := by
      apply Attempt.Mirrors.get_bind
      intro s _
      apply Attempt.Mirrors.ite
      · exact fun _ => plainly_mirrors genRandomNumString_quiet
      · intro _
        apply Attempt.Mirrors.modify_bind
        · exact fun s hs => ⟨⟨hs.varMaps,hs.allSatisfiableTypes,Nat.succ_ne_zero _⟩,rfl⟩
        · exact afterTest_mirrors (fun k i => ih k i) type i
    apply htest.congr
    intro s hs
    rw [generateExpressionByTypeCore, Attempt.run_bind, collectMaps_begun hs.begun]

def withMaps (m : VarMaps) (sat : Satisfiable) (ir : IRNode) (s : RunState) : RunState :=
  { s with
    currentFixScope := some ir.scopeId
    varMaps := m
    allSatisfiableTypes := sat
    dereferenced := (some ir,s.passed) :: (some ir,s.passed) :: (some ir,s.passed) :: s.dereferenced }

omit hcore in
theorem collectMaps_run {ir : IRNode} (hsat : collectSatisfiableTypes weak ts (collectAllVarDefinitionByType st ts ir) = .ok sat)
    {s : RunState} (hscope : s.currentFixScope ≠ some ir.scopeId) (hcounter : s.genCounter = 0) :
    (collectMaps weak st ts (some ir)).run s =
      (.ok (),withMaps (collectAllVarDefinitionByType st ts ir) sat ir s) := by
  simp [collectMaps, deref, Attempt.run_bind, hscope, hsat, hcounter, withMaps]

omit hcore in
/-- The outermost call, which finds the counters at zero and collects. -/
theorem generateExpressionByTypeCore_first (fuel : ℕ) (type : TypeID) {ir : IRNode}
    (hsat : collectSatisfiableTypes weak ts (collectAllVarDefinitionByType st ts ir) = .ok sat) {s : RunState}
    (hscope : s.currentFixScope ≠ some ir.scopeId) :
    Generator.generateExpressionByTypeCore weak ts (collectAllVarDefinitionByType st ts ir) sat (fuel + 1) type
        ⟨s.rand,0,0⟩ = Attempt.result RunState.toGenState ((generateExpressionByTypeCore weak st ts (fuel + 1) type (some ir)).run
          { s with genCounter := 0, functionGenCounter := 0, passed := 0, dereferenced := [] }) := by
  let start : RunState := { s with genCounter := 0, functionGenCounter := 0, passed := 0, dereferenced := [] }
  let begun : RunState := withMaps (collectAllVarDefinitionByType st ts ir) sat ir start
  have hmaps : (collectMaps weak st ts (some ir)).run start = (.ok (),begun) := collectMaps_run hsat hscope rfl
  have hpast : (generateExpressionByTypeCore weak st ts (fuel + 1) type (some ir)).run start =
      (generateOnce weak ts (generateExpressionByTypeCore weak st ts fuel) type (some ir)).run begun := by
    have hcounter : ¬ begun.genCounter > 50 := Nat.not_lt_zero 50
    rw [generateExpressionByTypeCore_tested hmaps, if_neg hcounter]
  -- from the state in which the outermost call has counted itself
  have hafter := (@afterTest_mirrors (collectAllVarDefinitionByType st ts ir) sat weak ts _ _
    (fun k i => @generateExpressionByTypeCore_mirrors _ _ weak st ts fuel k i) type (some ir)).result_eq
    (s := { begun with genCounter := begun.genCounter + 1, passed := begun.passed + 1 }) ⟨rfl,rfl,Nat.succ_ne_zero _⟩
  change _ = Attempt.result RunState.toGenState ((generateExpressionByTypeCore weak st ts (fuel + 1) type (some ir)).run start)
  rw [hpast, Generator.generateExpressionByTypeCore, run_get_bind, if_neg (by simp), run_modify_bind, generateOnce,
    Attempt.run_modify_bind]
  exact hafter

omit hcore in
/-- In an object that has not collected for the scope the generator does what the
one does that collects for each expression. -/
theorem generateExpressionByType_refines (weak : Bool) (st : ScopeTree) (ts : TypeSystem) (type : TypeID) (ir : IRNode)
    {s : RunState} (hscope : s.currentFixScope ≠ some ir.scopeId) :
    generateExpression weak st ts ir type s.rand =
      Attempt.result (fun t => t.rand) ((generateExpressionByType weak st ts type ir).run s) := by
  obtain ⟨sat,hsat,_⟩ := collected_satisfiable weak st ts ir
  let start : RunState := { s with genCounter := 0, functionGenCounter := 0, passed := 0, dereferenced := [] }
  have hcore : Generator.generateExpressionByTypeCore weak ts (collectAllVarDefinitionByType st ts ir) sat 52 type
      ⟨s.rand,0,0⟩ = Attempt.result RunState.toGenState
        ((generateExpressionByTypeCore weak st ts 52 type (some ir)).run start) :=
    generateExpressionByTypeCore_first 51 type hsat hscope
  unfold generateExpression generateExpressionByType
  simp only [hsat, hcore]
  rw [Attempt.run_modify_bind, Attempt.run_bind]
  cases hrun : (generateExpressionByTypeCore weak st ts 52 type (some ir)).run start with
  | mk r t =>
    cases r with
    | error e => rfl
    | ok res =>
      by_cases hres : res = []
      · simp [Attempt.result, hres]
      · simp [Attempt.result, hres]

end Mirrors

end Traced

end Generator

end PolyGlot
