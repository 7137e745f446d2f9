import PolyGlot.Scope.Mirror
import PolyGlot.Support.TreeSearch
import PolyGlot.Support.Prog

set_option autoImplicit false

/-! # Symbol collection

The collectors that `BuildSymbolTables` runs over a tree with scope ids. A
definition that one of them visits goes to the symbol table of a scope, and a
function or a class becomes a type as well.

`HasBuiltinType` is always false: nothing sets the flag it reads.
-/
namespace PolyGlot

open BinaryTree Prog

def isDefinition (n : IRNode) : Bool :=
  n.dataType = .kVariableDefinition || n.dataType = .kFunctionDefinition || n.dataType = .kClassDefinition

def ofType (type : DataType) (n : IRNode) : Bool := n.dataType = type

def forbidden (forbid : DataType) (n : IRNode) : Bool := forbid ≠ .kDataDefault && n.dataType = forbid

namespace IR

/-- The ids of a node that a pointer points to; none of these is asked of a null
pointer. -/
def scopeId (t : IR) : ScopeID := (t.root?.map IRNode.scopeId).getD 0
def statementId (t : IR) : StatementID := (t.root?.map IRNode.statementId).getD 0

def getString : IR → Except Fault Str
  | .nil => .error .nullDeref
  | .node n _ _ => match n.data with
    | .string s => .ok s
    | _ => .error .exception

def containsDefinition : IR → Bool
  | .nil => false
  | .node n l r => isDefinition n || containsDefinition l || containsDefinition r

def findDefineType : IR → DataType
  | .nil => .kDataDefault
  | .node n l r =>
    if n.dataType = .kVariableType ∨ n.dataType = .kClassDefinition ∨ n.dataType = .kFunctionDefinition then n.dataType
    else match findDefineType l with
      | .kDataDefault => findDefineType r
      | res => res

def searchByDataType (type forbid : DataType) : IR → IR
  | .nil => .nil
  | .node n l r =>
    if n.dataType = type then .node n l r
    else if forbidden forbid n then .nil
    else match searchByDataType type forbid l with
      | .nil => searchByDataType type forbid r
      | res => res

/-- The search that fills a vector, which does not go inside what it found. -/
def searchAllByDataType (type forbid : DataType) : IR → List IR := outermost (ofType type) (forbidden forbid)

variable {type forbid : DataType} {t : IR}

theorem searchByDataType_eq : t.searchByDataType type forbid = t.firstOutermost (ofType type) (forbidden forbid) := by
  induction t with
  | nil => rfl
  | node n l r ihl ihr =>
    unfold firstOutermost
    rw [searchByDataType, outermost, ihl, ihr, ofType]
    by_cases htype : n.dataType = type
    · simp [htype]
    · by_cases hforbid : forbidden forbid n = true
      · simp [htype, hforbid]
      · simp only [htype, hforbid, if_false, decide_false, Bool.false_eq_true]
        cases hl : l.firstOutermost (ofType type) (forbidden forbid) with
        | nil => simp [firstOutermost, firstOutermost_eq_nil.mp hl]
        | node m a b =>
          rw [firstOutermost] at hl
          cases hall : outermost (ofType type) (forbidden forbid) l with
          | nil => simp [hall] at hl
          | cons u us => simpa [hall] using hl.symm

/-- What a search finds is there, and of the type. -/
theorem searchByDataType_place (h : t.searchByDataType type forbid ≠ .nil) :
    ∃ q n l r, t.subtreeAt q = .node n l r ∧ n.dataType = type ∧ t.searchByDataType type forbid = .node n l r := by
  rw [searchByDataType_eq] at h ⊢
  obtain ⟨n,l,r,hroot,htype⟩ := root_of_mem_outermost (firstOutermost_mem h)
  obtain ⟨q,hq,_⟩ := mem_outermost.mp (firstOutermost_mem h)
  exact ⟨q,n,l,r,hq.trans hroot,by simpa [ofType] using htype,hroot⟩

end IR

structure CollectState where
  types : TypeSystem
  scopes : ScopeTree

abbrev Collect := Prog Fault CollectState

section Collectors
variable (cfg : Configuration)

def addDefinition (scope : ScopeID) (d : Definition) : Collect Unit := fun s =>
  match s.scopes.addDefinition scope d with
  | .error f => .error f
  | .ok scopes => .ok ((), { s with scopes })

/-- The scope of that id gets the definition, the others stay. -/
theorem addDefinition_run {id : ScopeID} {d : Definition} {s t : CollectState} {u : Unit}
    (h : addDefinition id d s = .ok (u,t)) : ∃ sc, s.scopes.getScopeById id = some sc ∧ t.types = s.types ∧
      ∀ i, t.scopes.getScopeById i = if id = i then some (sc.addDefinition d) else s.scopes.getScopeById i := by
  unfold addDefinition ScopeTree.addDefinition at h
  cases hget : s.scopes.getScopeById id with
  | none => simp [hget] at h
  | some sc =>
    simp only [hget, Except.ok.injEq, Prod.mk.injEq, true_and] at h
    subst h
    exact ⟨sc,rfl,rfl,getElem?_addDefinition hget d⟩

def createFunctionType (functionName : Str) (returnType : TypeID) (args : List (TypeID × Str)) : Collect TypeID :=
  fun s => .ok (s.types.statics.nextId,
    { s with types := s.types.createFunctionType functionName returnType (args.map Prod.fst) (args.map Prod.snd) })

def createCompoundType (structureName : Str) (members : List (TypeID × Str)) : Collect TypeID :=
  fun s => .ok (s.types.statics.nextId, { s with types := s.types.createCompoundType structureName members })

/-- `GetTypeIDByStr` of the text of a node, as the collectors trim it. -/
def typeIDOf (types : TypeSystem) (typeIR : IR) : TypeID := types.getTypeIDByStr cfg (trim typeIR.render)

def simpleType (cur : IR) : Collect TypeID := do
  let typeNode := cur.searchByDataType .kVariableType .kDataDefault
  if typeNode = .nil then return SpecialType.kAnyType
  else do
    let s ← get
    let type := typeIDOf cfg s.types typeNode
    if type = SpecialType.kNotExist ∧ cfg.isWeakType = true then return SpecialType.kAnyType
    else do
      assertThat (type ≠ SpecialType.kNotExist) .assertion
      return type

def collectSimpleVariableDefinition (cur : IR) : Collect Unit := do
  let names := cur.searchAllByDataType .kVariableName .kDataDefault
  let type ← simpleType cfg cur
  names.forM fun name => addDefinition cur.scopeId ⟨name.render,type,name.statementId⟩

def membersOf (scope : ScopeID) : Collect (List (TypeID × Str)) := fun s =>
  match s.scopes.getScopeById scope with
  | none => .error .nullDeref
  | some sc => .ok (sc.symbolTable.toList.flatMap fun e => e.2.map fun d => (d.type,d.name), s)

theorem membersOf_run {scope : ScopeID} {members : List (TypeID × Str)} {s t : CollectState}
    (h : membersOf scope s = .ok (members,t)) : t = s ∧ ∃ sc, s.scopes.getScopeById scope = some sc ∧
      members = sc.symbolTable.toList.flatMap fun e => e.2.map fun d => (d.type,d.name) := by
  unfold membersOf at h
  split at h
  · cases h
  · cases h
    exact ⟨rfl,_,‹_›,rfl⟩

def collectStructureDefinition (inner : IR → Collect Unit) (cur : IR) : Collect Unit := do
  assertThat (cur.dataType? = some .kClassDefinition) .contract
  let structureName := cur.searchByDataType .kClassName .kDataDefault
  let structBody := cur.searchByDataType .kClassBody .kDataDefault
  assertThat (structBody ≠ .nil) .assertion
  assertThat (structureName ≠ .nil) .assertion
  let name ← liftM structureName.getString
  inner structBody
  let members ← membersOf structBody.scopeId
  let id ← createCompoundType (trim name) members
  addDefinition cur.scopeId ⟨trim name,id,cur.statementId⟩

/-- The text without the word in front of it, which the code only looks for in a
text of more than seven characters. -/
def dropTag (s : Str) : Str :=
  if 7 < s.length then
    if s.take 7 = "struct ".toList then s.drop 7
    else if s.take 5 = "enum ".toList then s.drop 5
    else s
  else s

def returnTypeID (types : TypeSystem) (returnTypeIR : IR) : TypeID :=
  if returnTypeIR = .nil then SpecialType.kNotExist
  else types.getTypeIDByStr cfg (trim (dropTag returnTypeIR.render))

/-- The types and the names of the arguments. The type node is dereferenced,
although it was asked before whether there is one. -/
def argumentsOf (types : TypeSystem) : List IR → Except Fault (List (TypeID × Str))
  | [] => .ok []
  | arg :: args =>
    let argType := arg.searchByDataType .kVariableType .kDataDefault
    let argName := arg.searchByDataType .kVariableName .kDataDefault
    if argName = .nil then .error .assertion
    else if argType = .nil then .error .nullDeref
    else match argumentsOf types args with
      | .error f => .error f
      | .ok rest => .ok ((typeIDOf cfg types argType,trim argName.render) :: rest)

def collectFunctionDefinition (inner : IR → Collect Unit) (cur : IR) : Collect Unit := do
  let returnTypeIR := cur.searchByDataType .kFunctionReturnType .kFunctionBody
  let functionName := cur.searchByDataType .kFunctionName .kFunctionBody
  let arguments := cur.searchAllByDataType .kFunctionArgument .kFunctionBody
  assertThat (functionName ≠ .nil) .nullDeref
  let name := stripString functionName.render
  if name = [] then return
  else do
    let s ← get
    let returnType := returnTypeID cfg s.types returnTypeIR
    let args ← liftM (argumentsOf cfg s.types arguments)
    args.forM fun a => assertThat ((s.types.getTypePtrByID a.1).isSome = true) .nullDeref
    onlyIf (returnType ≠ SpecialType.kNotExist) do
      let id ← createFunctionType name returnType args
      addDefinition cur.scopeId ⟨name,id,functionName.statementId⟩
    let functionBody := cur.searchByDataType .kFunctionBody .kDataDefault
    onlyIf (functionBody ≠ .nil) do
      args.forM fun a => addDefinition functionBody.scopeId ⟨a.2,a.1,cur.statementId⟩
      inner functionBody

def collectDefinition (inner : IR → Collect Unit) : IR → Collect Unit
  | .nil => pure ()
  | .node n l r =>
    if isDefinition n then
      match IR.findDefineType (.node n l r) with
      | .kClassDefinition => collectStructureDefinition inner (.node n l r)
      | .kFunctionDefinition => collectFunctionDefinition cfg inner (.node n l r)
      | _ => collectSimpleVariableDefinition cfg (.node n l r)
    else do
      collectDefinition inner l
      collectDefinition inner r

section Node
variable {cfg} {inner : IR → Collect Unit} {n : IRNode} {l r : IR}

theorem collectDefinition_class (hn : isDefinition n = true)
    (hkind : IR.findDefineType (.node n l r) = .kClassDefinition) :
    collectDefinition cfg inner (.node n l r) = collectStructureDefinition inner (.node n l r) := by
  simp only [collectDefinition, if_pos hn, hkind]

theorem collectDefinition_function (hn : isDefinition n = true)
    (hkind : IR.findDefineType (.node n l r) = .kFunctionDefinition) :
    collectDefinition cfg inner (.node n l r) = collectFunctionDefinition cfg inner (.node n l r) := by
  simp only [collectDefinition, if_pos hn, hkind]

theorem collectDefinition_variable (hn : isDefinition n = true)
    (hclass : IR.findDefineType (.node n l r) ≠ .kClassDefinition)
    (hfunction : IR.findDefineType (.node n l r) ≠ .kFunctionDefinition) :
    collectDefinition cfg inner (.node n l r) = collectSimpleVariableDefinition cfg (.node n l r) := by
  rw [collectDefinition, if_pos hn]
  split
  · exact absurd ‹_› hclass
  · exact absurd ‹_› hfunction
  · rfl

end Node

/-- `recursiveCounter` is what the counter is once the call has counted itself. -/
def createSymbolTableRec : ℕ → ℕ → IR → Collect Unit
  | 0, _, _ => fail .outOfFuel
  | fuel + 1, recursiveCounter, root =>
    if recursiveCounter = 1 ∧ (root.getChildNum > 250 ∨ root.getChildNum > 1500) then pure ()
    else onlyIf (root.containsDefinition = true)
      (collectDefinition cfg (createSymbolTableRec fuel (recursiveCounter + 1)) root)

def buildSymbolTables (root : IR) : Collect Unit := createSymbolTableRec cfg root.getChildNum 1 root

/-- `BuildScopeTreeWithSymbolTable`: a new scope tree and its type system, which
sees the static members that `before` saw, and the tree with its scope ids. -/
def buildScopeTreeWithSymbolTable (before : TypeSystem) (root : IR) : Except Fault (IR × CollectState) := do
  let (root,scopes) ← buildTree root
  let (_,s) ← buildSymbolTables cfg root ⟨TypeSystem.construct cfg before,scopes⟩
  return (root,s)

end Collectors

end PolyGlot
