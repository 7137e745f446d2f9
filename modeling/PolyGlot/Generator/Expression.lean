import PolyGlot.Generator.Collect
import PolyGlot.Mutation.Value
import PolyGlot.Support.Prog

set_option autoImplicit false

/-! # The expression generator

`GenerateExpression` for a generator that was just constructed: it collects what
the node can use, and then picks at random what to make of it. The two counters
tell how much has been made.
-/
namespace PolyGlot

namespace Generator

open Prog

structure GenState where
  rand : Rand
  genCounter : ℕ
  functionGenCounter : ℕ

abbrev Gen := Prog Fault GenState

def getRandInt (range : ℕ) : Gen ℕ := fun s =>
  if range = 0 then .error .remByZero else .ok (s.rand.head % range, { s with rand := s.rand.tail })

def randomPick {α : Type} (l : List α) : Gen α := fun s =>
  match l[s.rand.head % l.length]? with
  | none => .error .remByZero
  | some a => .ok (a, { s with rand := s.rand.tail })

def genRandomNumString : Gen Str := do
  let n ← getRandInt 0x1000
  return intText n

def memberStr : Str := ".".toList

section Handlers
variable (weak : Bool) (ts : TypeSystem) (core : TypeID → Gen Str)

def appendArguments : List TypeID → Str → Gen Str
  | [], res => return res
  | k :: ks, res => do
    let arg ← core k
    appendArguments ks (res ++ arg ++ [','])

def closeArguments (res : Str) : Str :=
  if res.getLast? = some ',' then res.dropLast ++ [')'] else res ++ [')']

def functionCallGenHandler (functionMap : VectorMap TypeID Str) : Gen Str := do
  assertThat (functionMap.size ≠ 0) .assertion
  let pickFunc ← randomPick functionMap.toList
  match ts.getFunctionType pickFunc.1 with
  | none => fail .assertion
  | some choice => do
    modify fun s => { s with functionGenCounter := s.functionGenCounter + choice.argTypes.length }
    let res ← appendArguments core choice.argTypes (choice.name ++ ['('])
    return closeArguments res

def directMembers (targetType : TypeID) : List (TypeID × List Str) → Gen (List Str)
  | [] => return []
  | member :: rest =>
    if member.1 = targetType then do
      let name ← randomPick member.2
      let others ← directMembers targetType rest
      return (memberStr ++ name) :: others
    else directMembers targetType rest

/-- What a search of the members has found: ways to a value, functions that
return one, and the types visited. -/
structure Found where
  allSol : List Str
  funcSol : List FunctionType
  visit : Finset TypeID

def memberLoop (search : TypeID → Finset TypeID → Gen (Str × Finset TypeID)) (targetType : TypeID) :
    List (TypeID × List Str) → Found → Gen Found
  | [], found => return found
  | member :: rest, found =>
    if ts.isCompoundType member.1 then
      if member.1 ∈ found.visit then memberLoop search targetType rest found
      else do
        let tmpRes ← search member.1 found.visit
        let found := { found with visit := tmpRes.2 }
        if tmpRes.1 = [] then memberLoop search targetType rest found
        else do
          let name ← randomPick member.2
          memberLoop search targetType rest { found with allSol := found.allSol ++ [memberStr ++ name ++ tmpRes.1] }
    else if ts.isFunctionType member.1 then
      if member.1 = targetType then do
        let name ← randomPick member.2
        memberLoop search targetType rest { found with allSol := found.allSol ++ [memberStr ++ name] }
      else match ts.getFunctionType member.1 with
        | none => fail .nullDeref
        | some pfunc =>
          if pfunc.returnType ≠ targetType then memberLoop search targetType rest found
          else memberLoop search targetType rest { found with funcSol := found.funcSol ++ [pfunc] }
    else memberLoop search targetType rest found

def callMember (funcSol : List FunctionType) : Gen Str := do
  let pfunc ← randomPick funcSol
  let res ← functionCallGenHandler ts core ((∅ : VectorMap TypeID Str).push pfunc.typeId pfunc.name)
  return memberStr ++ res

def pickSolution (allSol : List Str) (funcSol : List FunctionType) : Gen Str :=
  if allSol ≠ [] ∧ funcSol = [] then randomPick allSol
  else if allSol = [] ∧ funcSol ≠ [] then callMember ts core funcSol
  else if allSol ≠ [] ∧ funcSol ≠ [] then do
    let coin ← getRandInt 2
    if coin ≠ 0 then callMember ts core funcSol else randomPick allSol
  else return []

def getClassMemberByTypeNoDuplicate (targetType : TypeID) : ℕ → TypeID → Finset TypeID → Gen (Str × Finset TypeID)
  | 0, _, _ => fail .outOfFuel
  | fuel + 1, type, visit =>
    match ts.getCompoundType type with
    | none => fail .nullDeref
    | some typePtr => do
      let direct ← directMembers targetType typePtr.members.toList
      let found ← memberLoop ts (getClassMemberByTypeNoDuplicate targetType fuel) targetType typePtr.members.toList
        ⟨direct,[],insert type visit⟩
      let res ← pickSolution ts core found.allSol found.funcSol
      return (res,found.visit)

def getClassMemberByType (type targetType : TypeID) : Gen Str := do
  let res ← getClassMemberByTypeNoDuplicate ts core targetType (ts.own.compound.size + ts.statics.compound.size + 1) type ∅
  return res.1

def wholeVariable (compoundType : TypeID) (compoundVar : Str) : Gen Str :=
  if weak = true ∧ ts.isBuiltinType compoundType = true then do
    let coin ← getRandInt 4
    if coin = 0 then return compoundVar
    else match ts.getTypePtrByID compoundType with
      | none => return compoundVar
      | some compoundPtr =>
        if compoundVar = compoundPtr.name then return "(new ".toList ++ compoundPtr.name ++ "())".toList
        else return compoundVar
  else return compoundVar

/-- No compound type is built in. -/
theorem wholeVariable_eq {weak : Bool} {ts : TypeSystem} {c : TypeID} {x : Str} (hc : ts.isCompoundType c = true) :
    wholeVariable weak ts c x = pure x := by
  unfold wholeVariable
  rw [TypeSystem.isBuiltinType_of_compound hc]
  simp

def structureMemberGenHandler (compoundVarMap : VectorMap TypeID Str) (memberType : TypeID) : Gen Str := do
  let compound ← randomPick compoundVarMap.toList
  assertThat (compound.2 ≠ []) .assertion
  let compoundVar ← randomPick compound.2
  let res ← getClassMemberByType ts core compound.1 memberType
  if res = [] then do
    assertThat (memberType = compound.1) .assertion
    wholeVariable weak ts compound.1 compoundVar
  else return compoundVar ++ res

end Handlers

structure Weights where
  expression : ℕ
  function : ℕ
  compound : ℕ
  simple : ℕ

def Weights.total (w : Weights) : ℕ := w.simple + w.function + w.compound

section Core
variable (weak : Bool) (ts : TypeSystem) (varMaps : VarMaps) (allSatisfiableTypes : Satisfiable)

def usable (type : TypeID) (k : TypeKind) : VectorMap TypeID Str :=
  (varMaps k).restrict (allSatisfiableTypes.handlers type k)

def expressionSize (type : TypeID) (size : ℕ) : ℕ :=
  if ts.isFunctionType type = true ∨ ts.isCompoundType type = true then 0
  else if size >>> 1 = 0 then 1 else size >>> 1

/-- A shift by the width of the type or more is undefined; the machine takes the
amount modulo the width. -/
def weights (s : GenState) (type : TypeID) : Weights :=
  let simpleSize := (usable varMaps allSatisfiableTypes type .simple).size
  let compoundSize := (usable varMaps allSatisfiableTypes type .compound).size
  let functionSize := (usable varMaps allSatisfiableTypes type .function).size
  let expression := expressionSize ts type (functionSize + compoundSize + simpleSize) <<< 1
  { expression := if s.genCounter > 15 then 0 else if s.genCounter > 3 then expression >>> 2 else expression
    function := if s.functionGenCounter > 2 then (functionSize <<< 3) >>> ((s.functionGenCounter >>> 2) % 64)
      else functionSize <<< 3
    compound := compoundSize <<< 3
    simple := if s.genCounter > 15 then (simpleSize <<< 6) <<< 16 else simpleSize <<< 6 }

/-- `GetPointerType` returns null, and the loop dereferences what it returns. -/
def updatePointerVar : Gen Unit :=
  match (varMaps .pointer).toList with
  | [] => return
  | pointerType :: _ => if pointerType.2 = [] then return else fail .nullDeref

def pickType (type : TypeID) : Gen TypeID :=
  if type = SpecialType.kAllTypes ∧ allSatisfiableTypes.size ≠ 0 then do
    let entry ← randomPick allSatisfiableTypes.toList
    if ts.isFunctionType entry.1 = true then do
      let coin ← getRandInt 3
      if coin = 0 then return entry.1
      else match ts.getFunctionType entry.1 with
        | none => fail .nullDeref
        | some f => return f.returnType
    else return entry.1
  else return type

def makeValue (core : TypeID → Gen Str) (type : TypeID) : Gen Str :=
  let simpleVarMap := usable varMaps allSatisfiableTypes type .simple
  let compoundVarMap := usable varMaps allSatisfiableTypes type .compound
  let functionMap := usable varMaps allSatisfiableTypes type .function
  if functionMap.size + compoundVarMap.size + simpleVarMap.size = 0 then genRandomNumString
  else do
    let w := weights ts varMaps allSatisfiableTypes (← get) type
    if w.total = 0 then genRandomNumString
    else do
      let choice ← getRandInt w.total
      if choice < w.expression then fail .assertion
      else if choice - w.expression < w.function then functionCallGenHandler ts core functionMap
      else if choice - w.expression - w.function < w.compound then
        structureMemberGenHandler weak ts core compoundVarMap type
      else do
        assertThat (simpleVarMap.vals type ≠ []) .assertion
        randomPick (simpleVarMap.vals type)

def generateExpressionByTypeCore : ℕ → TypeID → Gen Str
  | 0, _ => fail .outOfFuel
  | fuel + 1, type => do
    if (← get).genCounter > 50 then genRandomNumString
    else do
      modify fun s => { s with genCounter := s.genCounter + 1 }
      onlyIf (weak = false) (updatePointerVar varMaps)
      let type ← pickType ts allSatisfiableTypes type
      if type ∈ allSatisfiableTypes then
        makeValue weak ts varMaps allSatisfiableTypes (generateExpressionByTypeCore fuel) type
      else genRandomNumString

end Core

/-- The outermost call finds the counter at zero and collects. No call is nested
deeper than the counter lets it. -/
def generateExpression (weak : Bool) (st : ScopeTree) (ts : TypeSystem) (ir : IRNode) (type : TypeID) :
    Prog Fault Rand Str := fun rand =>
  let varMaps := collectAllVarDefinitionByType st ts ir
  match collectSatisfiableTypes weak ts varMaps with
  | .error f => .error f
  | .ok allSatisfiableTypes =>
    match generateExpressionByTypeCore weak ts varMaps allSatisfiableTypes 52 type ⟨rand,0,0⟩ with
    | .error f => .error f
    | .ok (res, s) => if res = [] then .error .assertion else .ok (res, s.rand)

end Generator

end PolyGlot
