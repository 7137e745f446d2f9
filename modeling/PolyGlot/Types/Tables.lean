import PolyGlot.IR.Text
import PolyGlot.Support.VectorMap

set_option autoImplicit false

/-! # The tables of types

Class `TypeSystem` keeps its types in six tables: three static ones, which every
object shares and which outlive it, and three of its own. A run constructs
objects and creates types in them, in any order.

The lists of base and derived types are left out: only `CanDeriveFrom` reads
them, and nothing calls it.
-/
namespace PolyGlot

abbrev TypeID := ℤ

namespace SpecialType

def kNotExist : TypeID := 0
def kAllTypes : TypeID := 1
def kAllCompoundType : TypeID := 2
def kAllFunction : TypeID := 3
def kAnyType : TypeID := 6

end SpecialType

structure FunctionType where
  typeId : TypeID
  name : Str
  returnType : TypeID
  argNames : List Str
  argTypes : List TypeID

structure CompoundType where
  typeId : TypeID
  name : Str
  members : VectorMap TypeID Str

structure PointerType where
  typeId : TypeID
  name : Str
  origType : TypeID
  basicType : TypeID
  referenceLevel : ℕ

def CompoundType.memberTypes (c : CompoundType) : List TypeID := c.members.keys

inductive TypeKind
  | simple
  | compound
  | function
  | pointer
  deriving DecidableEq, Repr

/-- A `shared_ptr<VarType>` that is not null, by the class of its object. -/
inductive VarType
  | simple (typeId : TypeID) (name : Str)
  | compound (c : CompoundType)
  | function (f : FunctionType)
  | pointer (p : PointerType)

namespace VarType

def typeId : VarType → TypeID
  | .simple typeId _ => typeId
  | .compound c => c.typeId
  | .function f => f.typeId
  | .pointer p => p.typeId

def name : VarType → Str
  | .simple _ name => name
  | .compound c => c.name
  | .function f => f.name
  | .pointer p => p.name

def kind : VarType → TypeKind
  | .simple _ _ => .simple
  | .compound _ => .compound
  | .function _ => .function
  | .pointer _ => .pointer

end VarType

/-- What the configuration file says, and the order in which a hash map hands
out its entries, which the language leaves open. -/
structure Configuration where
  isWeakType : Bool
  basicTypeStr : List Str
  hashOrder : List (TypeID × VarType) → List (TypeID × VarType)
  hashOrder_perm : ∀ l, (hashOrder l).Perm l

structure TypeStatics where
  simple : Std.TreeMap TypeID VarType
  compound : Std.TreeMap TypeID CompoundType
  function : Std.TreeMap TypeID FunctionType
  nextId : TypeID

/-- `pointers` is `pointer_map`: under an original type, the pointer types to it
by level. -/
structure TypeMembers where
  simpleVar : Std.TreeMap TypeID VarType
  compound : Std.TreeMap TypeID CompoundType
  function : Std.TreeMap TypeID FunctionType
  pointers : Std.TreeMap TypeID (Std.TreeMap ℕ TypeID)

structure TypeTables where
  statics : TypeStatics
  own : TypeMembers

namespace TypeStatics

def initial : TypeStatics := ⟨∅,∅,∅,10⟩

def addBasic (s : TypeStatics) (line : Str) : TypeStatics :=
  { s with simple := s.simple.insert s.nextId (.simple s.nextId line), nextId := s.nextId + 1 }

def createBuiltinType (s : TypeStatics) (id : TypeID) (name : Str) : TypeStatics :=
  { s with simple := s.simple.insert id (.simple id name) }

def specialTypes : List (TypeID × Str) :=
  [(SpecialType.kAllTypes, "SpecialType::kAllTypes".toList),
   (SpecialType.kAllCompoundType, "SpecialType::kAllCompoundType".toList),
   (SpecialType.kAllFunction, "SpecialType::kAllFunction".toList),
   (SpecialType.kAnyType, "SpecialType::kAnyType".toList)]

def initBasicTypes (cfg : Configuration) (s : TypeStatics) : TypeStatics :=
  let s := (cfg.basicTypeStr.filter (· ≠ [])).foldl addBasic s
  specialTypes.foldl (fun s p => s.createBuiltinType p.1 p.2) s

end TypeStatics

namespace TypeTables

def construct (cfg : Configuration) (s : TypeStatics) : TypeTables := ⟨s.initBasicTypes cfg,∅,∅,∅,∅⟩

def getTypePtrByID (t : TypeTables) (id : TypeID) : Option VarType :=
  t.statics.simple[id]? <|> t.statics.compound[id]?.map .compound <|> t.statics.function[id]?.map .function <|>
    t.own.simpleVar[id]? <|> t.own.compound[id]?.map .compound <|> t.own.function[id]?.map .function

def getCompoundType (t : TypeTables) (id : TypeID) : Option CompoundType :=
  t.own.compound[id]? <|> t.statics.compound[id]?

def getFunctionType (t : TypeTables) (id : TypeID) : Option FunctionType :=
  t.own.function[id]? <|> t.statics.function[id]?

def isCompoundType (t : TypeTables) (id : TypeID) : Bool :=
  t.statics.compound.contains id || t.own.compound.contains id

def isFunctionType (t : TypeTables) (id : TypeID) : Bool :=
  t.statics.function.contains id || t.own.function.contains id

def isBasicType (t : TypeTables) (id : TypeID) : Bool := t.statics.simple.contains id

def isBuiltinType (t : TypeTables) (id : TypeID) : Bool :=
  t.statics.compound.contains id || t.statics.simple.contains id || t.statics.function.contains id

/-- The entries of the six tables, in the order in which `GetTypeIDByStr` goes
through the tables. -/
def entries (t : TypeTables) : List (List (TypeID × VarType)) :=
  [t.statics.simple.toList,
   t.statics.compound.toList.map fun e => (e.1, .compound e.2),
   t.statics.function.toList.map fun e => (e.1, .function e.2),
   t.own.simpleVar.toList,
   t.own.compound.toList.map fun e => (e.1, .compound e.2),
   t.own.function.toList.map fun e => (e.1, .function e.2)]

def findNamed (cfg : Configuration) (s : Str) (table : List (TypeID × VarType)) : Option TypeID :=
  ((cfg.hashOrder table).find? fun e => e.2.name = s).map Prod.fst

def getTypeIDByStr (cfg : Configuration) (t : TypeTables) (s : Str) : TypeID :=
  (t.entries.findSome? (findNamed cfg s)).getD SpecialType.kNotExist

def createFunctionType (t : TypeTables) (functionName : Str) (returnType : TypeID) (args : List TypeID)
    (argNames : List Str) : TypeTables where
  statics := { t.statics with nextId := t.statics.nextId + 1 }
  own := { t.own with
    function := t.own.function.insert t.statics.nextId ⟨t.statics.nextId,functionName,returnType,argNames,args⟩ }

def createCompoundType (t : TypeTables) (structureName : Str) (members : List (TypeID × Str)) : TypeTables where
  statics := { t.statics with nextId := t.statics.nextId + 1 }
  own := { t.own with
    compound := t.own.compound.insert t.statics.nextId
      ⟨t.statics.nextId,structureName,members.foldl (fun m p => m.push p.1 p.2) ∅⟩ }

def pointerName (id : TypeID) : Str := "pointer_typeid_".toList ++ intText id

/-- The map `pointer_map[originalType]`, which the look makes when it is missing. -/
def levels (t : TypeTables) (originalType : TypeID) : Std.TreeMap ℕ TypeID := t.own.pointers[originalType]?.getD ∅

def setLevel (t : TypeTables) (originalType : TypeID) (level : ℕ) (id : TypeID) : TypeTables :=
  { t with own := { t.own with
      pointers := t.own.pointers.insert originalType ((t.levels originalType).insert level id) } }

def touchLevels (t : TypeTables) (originalType : TypeID) : TypeTables :=
  { t with own := { t.own with pointers := t.own.pointers.insert originalType (t.levels originalType) } }

def genTypeId (t : TypeTables) : TypeTables :=
  { t with statics := { t.statics with nextId := t.statics.nextId + 1 } }

/-- `GeneratePointerType`, which puts the type among the static ones. -/
def generatePointerType (t : TypeTables) (originalType : TypeID) : ℕ → Except Fault (TypeTables × TypeID)
  | 0 => .error .assertion
  | level + 1 =>
    let t := t.touchLevels originalType
    match (t.levels originalType)[level + 1]? with
    | some id => .ok (t, id)
    | none =>
      let id := t.statics.nextId
      let t := t.genTypeId
      match if level = 0 then .ok (t, originalType) else generatePointerType t originalType level with
      | .error f => .error f
      | .ok (t, baseType) =>
        let p : PointerType := ⟨id,pointerName id,baseType,originalType,level + 1⟩
        let t := { t with statics := { t.statics with simple := t.statics.simple.insert id (.pointer p) } }
        .ok (t.setLevel originalType (level + 1) id, id)

/-- The search of `pointer_map`: the type as an original one, of level zero, or
as a pointer, with its original type and level. -/
def findPointer (t : TypeTables) (type : TypeID) : Option (TypeID × ℕ) :=
  t.own.pointers.toList.findSome? fun orig =>
    if orig.1 = type then some (type, 0)
    else (orig.2.toList.find? fun level => level.2 = type).map fun level => (orig.1, level.1)

def addPointer (t : TypeTables) (type originalType : TypeID) (level : ℕ) : TypeTables × TypeID :=
  let id := t.statics.nextId
  let t := t.genTypeId
  let p : PointerType := ⟨id,pointerName id,type,originalType,level⟩
  let t := { t with own := { t.own with simpleVar := t.own.simpleVar.insert id (.pointer p) } }
  (t.setLevel originalType level id, id)

def getOrCreatePointerType (t : TypeTables) (type : TypeID) : TypeTables × TypeID :=
  match t.findPointer type with
  | none => t.addPointer type type 1
  | some (originalType, level) =>
    match (t.levels originalType)[level + 1]? with
    | some id => (t, id)
    | none => t.addPointer type originalType (level + 1)

end TypeTables

structure TypeWorld where
  statics : TypeStatics
  objects : List TypeMembers

inductive TypeCall
  | createFunctionType (functionName : Str) (returnType : TypeID) (args : List TypeID) (argNames : List Str)
  | createCompoundType (structureName : Str) (members : List (TypeID × Str))
  | generatePointerType (originalType : TypeID) (level : ℕ)
  | getOrCreatePointerType (type : TypeID)

def TypeCall.apply (t : TypeTables) : TypeCall → Except Fault TypeTables
  | .createFunctionType functionName returnType args argNames =>
    .ok (t.createFunctionType functionName returnType args argNames)
  | .createCompoundType structureName members => .ok (t.createCompoundType structureName members)
  | .generatePointerType originalType level => (t.generatePointerType originalType level).map Prod.fst
  | .getOrCreatePointerType type => .ok (t.getOrCreatePointerType type).1

inductive TypeOp
  | construct
  | call (i : ℕ) (c : TypeCall)

namespace TypeWorld

def initial : TypeWorld := ⟨.initial,[]⟩

def step (cfg : Configuration) (w : TypeWorld) : TypeOp → Except Fault TypeWorld
  | .construct =>
    let t := TypeTables.construct cfg w.statics
    .ok ⟨t.statics,w.objects ++ [t.own]⟩
  | .call i c =>
    match w.objects[i]? with
    | none => .error .nullDeref
    | some own => match c.apply ⟨w.statics,own⟩ with
      | .error f => .error f
      | .ok t => .ok ⟨t.statics,w.objects.set i t.own⟩

def run (cfg : Configuration) : List TypeOp → TypeWorld → Except Fault TypeWorld
  | [], w => .ok w
  | op :: ops, w =>
    match step cfg w op with
    | .error f => .error f
    | .ok w => run cfg ops w

end TypeWorld

end PolyGlot
