import PolyGlot.Mutation.Value
import PolyGlot.Antlr.Translate
import PolyGlot.Support.TreeHeap
import PolyGlot.Support.KeyedList

set_option autoImplicit false

/-! # The mutator in memory

Class `Mutator` and its `IRLibrary` as the source has them, on pointers: copies
are made node by node, `record_` is a member that a copy may set, the graft is
found by comparing pointers, and a node of the library is taken apart and put
together again while it is copied. A recursion over pointers gets the number of
cells as its fuel. A function that only reads, such as `ToString` or
`should_mutate`, is the function on values of the tree that its pointer leads to.
-/
namespace PolyGlot

open BinaryTree TreeHeap Prog

structure Mutator where
  heap : Heap IRNode
  irLibrary : IRType → List Ptr
  irLibraryHash : IRType → Finset UInt64
  record : Ptr
  /-- The static of `GetRandomIR`; null until the first call initialises it. -/
  emptyIr : Ptr
  idCounter : StatementID
  rand : Rand

/-- The memory that constructors find: the `scope_id_` of a node that takes an
id, and both ids of a copy by where it is. -/
structure Garbage where
  scopeId : StatementID → ScopeID
  copyIds : ℕ → ScopeID × StatementID

abbrev Mem := Prog HeapError (Heap IRNode)
abbrev Run := Prog Fault Mutator

def toFault : HeapError → Fault
  | .null => .nullDeref
  | .dangling => .nullDeref
  | .outOfFuel => .outOfFuel

def onHeap {α : Type} (m : Mem α) : Run α :=
  onPart Mutator.heap (fun h s => { s with heap := h }) toFault m

def deeply {α : Type} (m : ℕ → Run α) : Run α := fun s => m (s.heap.next + 1) s

def getRandInt (range : ℕ) : Run ℕ := fun s =>
  if range = 0 then .error .remByZero else .ok (s.rand.head % range, { s with rand := s.rand.tail })

def takeId : Run StatementID := fun s => .ok (s.idCounter, { s with idCounter := s.idCounter + 1 })

def treeOf (p : Ptr) : Run IR := onHeap (withFuel (load · p))

def hashOf (p : Ptr) : Run UInt64 := do return (← treeOf p).hash

def typeOf (p : Ptr) : Run IRType := do return (← onHeap (deref p)).val.type

section
variable (g : Garbage)

def copyNode (n : IRNode) (a : ℕ) : IRNode :=
  { n with
    op := some (n.op.getD .empty)
    scopeId := (g.copyIds a).1
    statementId := (g.copyIds a).2 }

def copyChild {ε σ : Type} (copy : Ptr → Prog ε σ Ptr) (p : Ptr) : Prog ε σ Ptr :=
  if p.isSome then copy p else pure none

def deepCopyRec : ℕ → Ptr → Mem Ptr
  | 0, _ => fun _ => .error .outOfFuel
  | fuel + 1, root => do
    let c ← deref root
    let left ← copyChild (deepCopyRec fuel) c.left
    let right ← copyChild (deepCopyRec fuel) c.right
    new (copyNode g c.val) left right

def deepCopyAt (root : Ptr) : Mem Ptr := withFuel (deepCopyRec g · root)

/-- `deep_copy_with_record` copies with the copy constructor, which keeps the
operator and the ids. -/
def deepCopyWithRecordRec (record : Ptr) : ℕ → Ptr → Run Ptr
  | 0, _ => fail .outOfFuel
  | fuel + 1, root => do
    assertThat record.isSome .contract
    let c ← onHeap (deref root)
    let left ← copyChild (deepCopyWithRecordRec record fuel) c.left
    let right ← copyChild (deepCopyWithRecordRec record fuel) c.right
    let copyRes ← onHeap (new (fun _ => c.val) left right)
    onlyIf (root = record) (modify ({ · with record := copyRes }))
    return copyRes

def deepCopyWithRecord (root record : Ptr) : Run Ptr := deeply (deepCopyWithRecordRec record · root)

def newLeaf (type : IRType) (s : Str) : Run Ptr := do
  let id ← takeId
  onHeap (new (fun _ => ⟨type, none, .string s, .kDataDefault, .kScopeDefault, g.scopeId id, id⟩) none none)

def extractChild (extract : Ptr → Run Unit) (root : Ptr) (s : Side) : Run Unit := do
  let c ← onHeap (deref root)
  onlyIf (c.side s).isSome do
    let child ← onHeap (deref (c.side s))
    if child.val.dataType = .kFixUnit then
      let leaf ← newLeaf g kUnknown FIXMETAG
      onHeap (update root (Cell.setSide s leaf))
    else extract (c.side s)

def extractStructureRec : ℕ → Ptr → Run Unit
  | 0, _ => fail .outOfFuel
  | fuel + 1, root => do
    extractChild g (extractStructureRec fuel) root .left
    extractChild g (extractStructureRec fuel) root .right
    let c ← onHeap (deref root)
    onlyIf (c.left.isNone ∧ c.right.isNone) (onHeap (update root (Cell.mapVal extractLeaf)))

def extractStructureAt (root : Ptr) : Run Unit := deeply (extractStructureRec g · root)

def kMaxIRNumForOneType : ℕ := 0x200

/-- The eviction of `SaveIRRecursive`: `std::swap` with `back()` and `pop_back`. -/
def evict (type : IRType) : Run Unit := do
  let s ← get
  onlyIf (kMaxIRNumForOneType ≤ (s.irLibrary type).length) do
    let randIdx ← getRandInt (s.irLibrary type).length
    let removedH ← hashOf ((s.irLibrary type).getD randIdx none)
    modify fun s => { s with
      irLibrary := Function.update s.irLibrary type (KeyedList.swapPop (s.irLibrary type) randIdx)
      irLibraryHash := Function.update s.irLibraryHash type ((s.irLibraryHash type).erase removedH) }

def insertEntry (type : IRType) (h : UInt64) (cur : Ptr) : Run Unit :=
  modify fun s => { s with
    irLibrary := Function.update s.irLibrary type (s.irLibrary type ++ [cur])
    irLibraryHash := Function.update s.irLibraryHash type (insert h (s.irLibraryHash type)) }

def saveIRRecursiveRec : ℕ → Ptr → Run Unit
  | 0, _ => fail .outOfFuel
  | fuel + 1, cur => do
    let type ← typeOf cur
    let h ← hashOf cur
    let s ← get
    if h ∈ s.irLibraryHash type then return ()
    else
      evict type
      insertEntry type h cur
      let c ← onHeap (deref cur)
      onlyIf c.left.isSome (saveIRRecursiveRec fuel c.left)
      onlyIf c.right.isSome (saveIRRecursiveRec fuel c.right)

def saveIRRecursive (cur : Ptr) : Run Unit := deeply (saveIRRecursiveRec · cur)

def addIRToLibrary (cur : Ptr) : Run Unit := do
  extractStructureAt g cur
  saveIRRecursive cur

def getRandomIRAt (type : IRType) : Run Ptr := do
  let s ← get
  onlyIf s.emptyIr.isNone do
    let e ← newLeaf g 0x1234567 []
    modify ({ · with emptyIr := e })
  let s ← get
  if s.irLibrary type = [] then return s.emptyIr
  else return (s.irLibrary type).getD (← getRandInt (s.irLibrary type).length) none

def sameInterfaceAt (a b : Ptr) : Run Bool := do
  if a.isSome ≠ b.isSome then return false
  else if a.isSome then return (← typeOf a) = (← typeOf b)
  else return true

/-- The node `res` of the library is copied alone: its children are taken off
and put back. -/
def copyHead (res : Ptr) : Mem Ptr := do
  let c ← deref res
  update res (Cell.setSide .left none)
  update res (Cell.setSide .right none)
  let copy ← deepCopyAt g res
  update res (Cell.setSide .left c.left)
  update res (Cell.setSide .right c.right)
  return copy

def copyChildInto (res cur : Ptr) (s : Side) : Mem Unit := do
  let c ← deref cur
  onlyIf (c.side s).isSome do
    let child ← deepCopyAt g (c.side s)
    update res (Cell.setSide s child)

def strategyReplaceWithConstraintAt (cur : Ptr) : Run Ptr := do
  assertThat cur.isSome .assertion
  let c ← onHeap (deref cur)
  if c.val.op.getD .empty = .empty then return none
  else
    let res ← getRandomIRAt g c.val.type
    let rc ← onHeap (deref res)
    if !(← sameInterfaceAt rc.left c.left) then return none
    else if !(← sameInterfaceAt rc.right c.right) then return none
    else
      let res ← onHeap (copyHead g res)
      onHeap (copyChildInto g res cur .left)
      onHeap (copyChildInto g res cur .right)
      return res

def notUnknownAt (p : Ptr) : Run Bool := do
  if p.isSome then return (← typeOf p) ≠ kUnknown else return false

def setCopy (res : Ptr) (s : Side) (newNode : Ptr) : Run Unit := do
  let copy ← onHeap (deepCopyAt g newNode)
  onHeap (update res (Cell.setSide s copy))

def childType (p : Ptr) (s : Side) : Run IRType := do
  let c ← onHeap (deref p)
  typeOf (c.side s)

def replaceOneChild (cur : Ptr) (s : Side) : Run Ptr := do
  let c ← onHeap (deref cur)
  if ← notUnknownAt (c.side s) then
    let res ← onHeap (deepCopyAt g cur)
    let newNode ← getRandomIRAt g (← childType res s)
    setCopy g res s newNode
    return res
  else return none

def replaceBothChildren (cur : Ptr) : Run Ptr := do
  let c ← onHeap (deref cur)
  if !(← notUnknownAt c.left) then return none
  else if !(← notUnknownAt c.right) then return none
  else
    let res ← onHeap (deepCopyAt g cur)
    let newLeft ← getRandomIRAt g (← childType res .left)
    let newRight ← getRandomIRAt g (← childType res .right)
    setCopy g res .right newRight
    setCopy g res .left newLeft
    return res

def strategyReplaceAt (cur : Ptr) : Run Ptr := do
  assertThat cur.isSome .assertion
  let choice ← getRandInt 3
  if choice = 0 then replaceOneChild g cur .left
  else if choice = 1 then replaceOneChild g cur .right
  else replaceBothChildren g cur

def constrainedVariantsAt (cur : Ptr) : ℕ → Run (List Ptr)
  | 0 => return []
  | k + 1 => do
    let tmp ← strategyReplaceWithConstraintAt g cur
    let rest ← constrainedVariantsAt cur k
    return if tmp.isSome then tmp :: rest else rest

def mutateIRAt (input : Ptr) : Run (List Ptr) := do
  let res ← constrainedVariantsAt g input kConstraintReplaceTimes
  let tmp ← strategyReplaceAt g input
  return if tmp.isSome then res ++ [tmp] else res

def searchChild (search : Ptr → Mem Ptr) (p : Ptr) : Mem Ptr :=
  if p.isSome then search p else return none

def locateParentRec (oldIr : Ptr) : ℕ → Ptr → Mem Ptr
  | 0, _ => fun _ => .error .outOfFuel
  | fuel + 1, root => do
    let c ← deref root
    if (c.left.isSome ∧ c.left = oldIr) ∨ (c.right.isSome ∧ c.right = oldIr) then return root
    else
      let res ← searchChild (locateParentRec oldIr fuel) c.left
      if res.isSome then return res
      else searchChild (locateParentRec oldIr fuel) c.right

def locateParent (root oldIr : Ptr) : Mem Ptr := withFuel (locateParentRec oldIr · root)

def replace (root oldIr newIr : Ptr) : Run Unit := do
  let parentIr ← onHeap (locateParent root oldIr)
  if parentIr.isNone then fail .assertion
  else
    let c ← onHeap (deref parentIr)
    if c.left.isSome ∧ c.left = oldIr then onHeap (update parentIr (Cell.setSide .left newIr))
    else if c.right.isSome ∧ c.right = oldIr then onHeap (update parentIr (Cell.setSide .right newIr))
    else fail .assertion

/-- The mutant that a variant `i` of the node `ir` gives: its backup and the
hash of what is left after extraction. -/
def graft (root ir i : Ptr) : Run (Ptr × UInt64) := do
  let newIrTree ← deepCopyWithRecord root ir
  let s ← get
  replace newIrTree s.record i
  let backup ← onHeap (deepCopyAt g newIrTree)
  extractStructureAt g newIrTree
  let tmpHash ← hashOf newIrTree
  return (backup, tmpHash.toUInt32.toUInt64)

def addVariantsAt (root ir : Ptr) : List Ptr → List Ptr × Finset UInt64 → Run (List Ptr × Finset UInt64)
  | [], acc => return acc
  | i :: variants, (res, resHash) => do
    let (backup, tmpHash) ← graft g root ir i
    if tmpHash ∈ resHash then addVariantsAt root ir variants (res, resHash)
    else addVariantsAt root ir variants (res ++ [backup], insert tmpHash resHash)

def mutateEach (root : Ptr) : List Ptr → List Ptr × Finset UInt64 → Run (List Ptr × Finset UInt64)
  | [], acc => return acc
  | ir :: irs, acc => do
    if ir = root ∨ !shouldMutate (← treeOf ir) then mutateEach root irs acc
    else
      let newVariants ← mutateIRAt g ir
      let acc ← addVariantsAt g root ir newVariants acc
      mutateEach root irs acc

/-- `MutateIRs`; `back()` of an empty vector is a null dereference. -/
def mutateIRsAt (irsToMutate : List Ptr) : Run (List Ptr) := do
  let root := irsToMutate.getLastD none
  let h ← hashOf root
  let out ← mutateEach g root irsToMutate ([], {h})
  return out.1

end

def withChild (collect : Ptr → Mem (List Ptr)) (p : Ptr) : Mem (List Ptr) :=
  if p.isSome then do return (← collect p) ++ [p] else return []

def getAllChildrenRec : ℕ → Ptr → Mem (List Ptr)
  | 0, _ => fun _ => .error .outOfFuel
  | fuel + 1, p => do
    let c ← deref p
    let l ← withChild (getAllChildrenRec fuel) c.left
    let r ← withChild (getAllChildrenRec fuel) c.right
    return l ++ r

def collectAllIRs (root : Ptr) : Mem (List Ptr) := do
  return (← withFuel (getAllChildrenRec · root)) ++ [root]

def mutateRoot (g : Garbage) (root : Ptr) : Run (List Ptr) := do
  let irs ← onHeap (collectAllIRs root)
  mutateIRsAt g irs

def store : IR → Mem Ptr
  | .nil => return none
  | .node n l r => do
    let left ← store l
    let right ← store r
    new (fun _ => n) left right

def translateToIR (g : Garbage) (t : ParseTree) : Run Ptr := fun s =>
  match translateNode g.scopeId t s.idCounter with
  | .error f => .error f
  | .ok (none, id) => .ok (none, { s with idCounter := id })
  | .ok (some ir, id) => onHeap (store ir) { s with idCounter := id }

def addToIRLibrary (g : Garbage) (t : ParseTree) : Run Unit := do
  let ir ← translateToIR g t
  onlyIf ir.isSome (addIRToLibrary g ir)

end PolyGlot
