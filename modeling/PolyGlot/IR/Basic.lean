import Mathlib.Data.Tree.Basic
import Mathlib.Tactic

/-! # The intermediate representation

An `IRPtr` is a possibly null pointer to a binary node, so a tree of them is a
`BinaryTree` whose `nil` is the null pointer. The payload holds every other
field of class `IR`. A `std::string` is the list of its characters.
-/
namespace PolyGlot

abbrev Str := List Char
abbrev IRType := ℕ
abbrev StatementID := ℕ
abbrev ScopeID := ℕ

/-- How a run of the program can stop short: a failed `assert`, a failed
contract check, a null dereference, an uncaught exception, a remainder by zero.
The last case is the model's own: a recursion was given too little fuel. -/
inductive Fault
  | assertion
  | contract
  | nullDeref
  | exception
  | remByZero
  | outOfFuel
  deriving DecidableEq, Repr

def FIXMETAG : Str := ['F', 'I', 'X', 'M', 'E']

/-- The type that the translator gives to the nodes a fold step invents. -/
def kUnknown : IRType := 0xdeadbeef

instance : NeZero kUnknown := ⟨by decide⟩

inductive DataType
  | kDataDefault
  | kFunctionDefinition
  | kFunctionName
  | kFunctionArgument
  | kFunctionReturnType
  | kFunctionBody
  | kClassDefinition
  | kClassName
  | kClassBody
  | kVariableDefinition
  | kVariableName
  | kVariableType
  | kPointer
  | kFixUnit
  deriving DecidableEq, Repr

inductive ScopeType
  | kScopeDefault
  | kScopeGlobal
  | kScopeFunction
  | kScopeStatement
  | kScopeClass
  deriving DecidableEq, Repr

structure IROperator where
  opPrefix : Str
  opMiddle : Str
  opSuffix : Str
  deriving DecidableEq, Repr

def IROperator.empty : IROperator := ⟨[], [], []⟩

/-- A `double` is only stored and printed: it is kept as the text that
`absl::StrAppend` prints for it. -/
structure Double where
  text : Str
  deriving DecidableEq, Repr

inductive IRData
  | monostate
  | string (s : Str)
  | int (i : ℤ)
  | double (d : Double)
  deriving DecidableEq, Repr

structure IRNode where
  type : IRType
  op : Option IROperator
  data : IRData
  dataType : DataType
  scopeType : ScopeType
  scopeId : ScopeID
  statementId : StatementID
  deriving DecidableEq, Repr

abbrev IR := BinaryTree IRNode

namespace IRNode

def containData (n : IRNode) : Bool := n.data != .monostate
def containString (n : IRNode) : Bool := match n.data with | .string _ => true | _ => false
def containInt (n : IRNode) : Bool := match n.data with | .int _ => true | _ => false
def containFloat (n : IRNode) : Bool := match n.data with | .double _ => true | _ => false

def holdsString (n : IRNode) (s : Str) : Bool := n.data == .string s

end IRNode

/-! The constructors. Those that number their node take the value of
`id_counter`; `scope_id_` is left unset, so it holds whatever `uninit` says the
memory of that node held. -/

section Constructors
variable (uninit : StatementID → ScopeID)

def IR.ofOperator (type : IRType) (op : IROperator) (left right : IR) (id : StatementID) : IR :=
  .node ⟨type, some op, .monostate, .kDataDefault, .kScopeDefault, uninit id, id⟩ left right

def IR.ofData (type : IRType) (data : IRData) (id : StatementID) : IR :=
  .node ⟨type, none, data, .kDataDefault, .kScopeDefault, uninit id, id⟩ .nil .nil

end Constructors

namespace IR

def modifyRoot (f : IRNode → IRNode) : IR → IR
  | .nil => .nil
  | .node n l r => .node (f n) l r

def setDataType (d : DataType) : IR → IR := modifyRoot ({ · with dataType := d })
def setScopeType (s : ScopeType) : IR → IR := modifyRoot ({ · with scopeType := s })

def type? : IR → Option IRType
  | .nil => none
  | .node n _ _ => some n.type

def dataType? : IR → Option DataType
  | .nil => none
  | .node n _ _ => some n.dataType

def isLeaf : IR → Bool
  | .node _ .nil .nil => true
  | _ => false

def getChildNum : IR → ℕ
  | .nil => 0
  | .node _ l r => getChildNum l + getChildNum r + 1

/-- `NeedFixing`: only leaves are looked at. -/
def needFixing : IR → Bool
  | .nil => false
  | .node n .nil .nil => n.holdsString FIXMETAG
  | .node _ l r => needFixing l || needFixing r

end IR

end PolyGlot
