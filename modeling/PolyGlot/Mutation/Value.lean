import PolyGlot.IR.Text
import PolyGlot.Support.TreePath
import Mathlib.Data.Stream.Init

set_option autoImplicit false

/-! # The mutator on values

`ExtractStructure`, the two strategies and `MutateIRs` as functions on trees.
The ids of a copy made by `deep_copy` are unset; here they are zero, and the
mutator in memory returns these trees up to ids. Each call of `rand()` takes the
next value of a stream.
-/
namespace PolyGlot

open BinaryTree

def IRNode.erase (n : IRNode) : IRNode := { n with scopeId := 0, statementId := 0 }

/-- What `IR(ir, left, right)` copies: an absent operator becomes an empty one
and the two ids are not copied. -/
def IRNode.copied (n : IRNode) : IRNode :=
  { n with op := some (n.op.getD .empty), scopeId := 0, statementId := 0 }

def IR.erase (t : IR) : IR := t.map IRNode.erase

def deepCopy (t : IR) : IR := t.map IRNode.copied

def extractLeaf (n : IRNode) : IRNode :=
  if n.dataType = .kDataDefault ∧ n.containString then { n with data := .string ['\'', 'x', '\''] }
  else if n.containInt then { n with data := .int 1 }
  else if n.containFloat then { n with data := .double ⟨['1', '.', '1']⟩ }
  else n

section
variable (uninit : StatementID → ScopeID)

def fixmeLeaf (id : StatementID) : IR := IR.ofData uninit kUnknown (.string FIXMETAG) id

def extractStructure : IR → StatementID → IR × StatementID
  | .nil, id => (.nil, id)
  | .node n l r, id =>
    let el := if IR.dataType? l = some DataType.kFixUnit then (fixmeLeaf uninit id, id + 1) else extractStructure l id
    let er := if IR.dataType? r = some DataType.kFixUnit then (fixmeLeaf uninit el.2, el.2 + 1)
      else extractStructure r el.2
    (.node (if l = .nil ∧ r = .nil then extractLeaf n else n) el.1 er.1, er.2)

end

def extractedChild (uninit : StatementID → ScopeID) (c : IR) (id : StatementID) : IR × StatementID :=
  if c.dataType? = some .kFixUnit then (fixmeLeaf uninit id, id + 1) else extractStructure uninit c id

theorem extractStructure_node (uninit : StatementID → ScopeID) (n : IRNode) (l r : IR) (id : StatementID) :
    extractStructure uninit (.node n l r) id =
      (.node (if l = .nil ∧ r = .nil then extractLeaf n else n) (extractedChild uninit l id).1
        (extractedChild uninit r (extractedChild uninit l id).2).1,
        (extractedChild uninit r (extractedChild uninit l id).2).2) := rfl

def canBeMutated : IR → Bool
  | .nil => true
  | .node n l r =>
    if n.dataType = .kVariableDefinition ∨ n.dataType = .kVariableType ∨ n.dataType = .kClassDefinition then false
    else canBeMutated l && canBeMutated r

/-- `should_mutate`; `not_mutatable_types_` is never filled. -/
def shouldMutate (cur : IR) : Bool :=
  cur.type? != some kUnknown && !cur.isLeaf && canBeMutated cur

abbrev Entries := IRType → List IR

abbrev Rand := Stream' ℕ

/-- The tree that `GetRandomIR` gives for a type without entries. -/
def emptyIR : IR := IR.ofData (fun _ => 0) 0x1234567 (.string []) 0

def getRandomIR (lib : Entries) (type : IRType) (r : Rand) : IR × Rand :=
  match lib type with
  | [] => (emptyIR, r)
  | e :: es => ((e :: es).getD (r.head % (e :: es).length) emptyIR, r.tail)

/-- Both null, or both of one type: `m_convertable_map_` is never filled, so
`is_ir_type_connvertable` is equality. -/
def sameInterface (t u : IR) : Bool := t.type? = u.type?

def strategyReplaceWithConstraint (lib : Entries) (cur : IR) (r : Rand) : Option IR × Rand :=
  match cur with
  | .nil => (none, r)
  | .node n cl cr =>
    if n.op.getD .empty = .empty then (none, r)
    else
      match getRandomIR lib n.type r with
      | (.nil, r) => (none, r)
      | (.node m rl rr, r) =>
        if sameInterface rl cl && sameInterface rr cr then
          (some (.node m.copied (deepCopy cl) (deepCopy cr)), r)
        else (none, r)

def notUnknown (t : IR) : Bool := t.type? != none && t.type? != some kUnknown

def replacedChild (lib : Entries) (cur : IR) (s : Side) (r : Rand) : Option IR × Rand :=
  if notUnknown (cur.child s) then
    let newNode := getRandomIR lib ((IR.type? (cur.child s)).getD 0) r
    (some (setChild s (deepCopy newNode.1) (deepCopy cur)), newNode.2)
  else (none, r)

def replacedChildren (lib : Entries) (cur : IR) (r : Rand) : Option IR × Rand :=
  if notUnknown (cur.child .left) && notUnknown (cur.child .right) then
    let newLeft := getRandomIR lib ((IR.type? (cur.child .left)).getD 0) r
    let newRight := getRandomIR lib ((IR.type? (cur.child .right)).getD 0) newLeft.2
    (some (setChild .left (deepCopy newLeft.1) (setChild .right (deepCopy newRight.1) (deepCopy cur))), newRight.2)
  else (none, r)

def strategyReplace (lib : Entries) (cur : IR) (r : Rand) : Option IR × Rand :=
  let choice := r.head % 3
  if choice = 0 then replacedChild lib cur .left r.tail
  else if choice = 1 then replacedChild lib cur .right r.tail
  else replacedChildren lib cur r.tail

def constrainedVariants (lib : Entries) (cur : IR) : ℕ → Rand → List IR × Rand
  | 0, r => ([], r)
  | k + 1, r =>
    let v := strategyReplaceWithConstraint lib cur r
    let rest := constrainedVariants lib cur k v.2
    (v.1.toList ++ rest.1, rest.2)

def kConstraintReplaceTimes : ℕ := 6

def mutateIR (lib : Entries) (cur : IR) (r : Rand) : List IR × Rand :=
  let vs := constrainedVariants lib cur kConstraintReplaceTimes r
  let v := strategyReplace lib cur vs.2
  (vs.1 ++ v.1.toList, v.2)

def Offered (lib : Entries) (T : IRType) (e : IR) : Prop := e ∈ lib T ∨ lib T = [] ∧ e = emptyIR

inductive Variant (lib : Entries) : IR → IR → Prop
  | swap {n m : IRNode} {cl cr rl rr : IR} (hop : n.op.getD .empty ≠ .empty)
      (hres : Offered lib n.type (.node m rl rr)) (hl : sameInterface rl cl) (hr : sameInterface rr cr) :
      Variant lib (.node n cl cr) (.node m.copied (deepCopy cl) (deepCopy cr))
  | child {cur e : IR} (s : Side) (hchild : notUnknown (cur.child s))
      (he : Offered lib ((IR.type? (cur.child s)).getD 0) e) :
      Variant lib cur (setChild s (deepCopy e) (deepCopy cur))
  | both {cur e e' : IR} (hl : notUnknown (cur.child .left)) (hr : notUnknown (cur.child .right))
      (he : Offered lib ((IR.type? (cur.child .left)).getD 0) e)
      (he' : Offered lib ((IR.type? (cur.child .right)).getD 0) e') :
      Variant lib cur (setChild .left (deepCopy e) (setChild .right (deepCopy e') (deepCopy cur)))

theorem offered_getRandomIR (lib : Entries) (T : IRType) (r : Rand) : Offered lib T (getRandomIR lib T r).1 := by
  unfold getRandomIR
  split
  · exact .inr ⟨‹_›,rfl⟩
  · rename_i e es h
    have hlt : r.head % (e :: es).length < (e :: es).length := Nat.mod_lt _ (by simp)
    rw [Offered, h, List.getD_eq_getElem?_getD, List.getElem?_eq_getElem hlt]
    exact .inl (List.getElem_mem hlt)

theorem variant_strategyReplaceWithConstraint {lib : Entries} {cur v : IR} {r : Rand}
    (h : (strategyReplaceWithConstraint lib cur r).1 = some v) : Variant lib cur v := by
  cases cur with
  | nil => cases h
  | node n cl cr =>
    have hoffered := offered_getRandomIR lib n.type r
    rw [strategyReplaceWithConstraint] at h
    split at h
    · cases h
    · rename_i hop
      cases hres : getRandomIR lib n.type r with
      | mk e r' =>
        rw [hres] at h hoffered
        cases e with
        | nil => cases h
        | node m rl rr =>
          simp only [] at h
          split at h
          · rename_i hsame
            rw [Bool.and_eq_true] at hsame
            cases h
            exact .swap hop hoffered hsame.1 hsame.2
          · cases h

theorem variant_replacedChild {lib : Entries} {cur v : IR} {s : Side} {r : Rand}
    (h : (replacedChild lib cur s r).1 = some v) : Variant lib cur v := by
  unfold replacedChild at h
  split at h
  · cases h
    exact .child s ‹_› (offered_getRandomIR ..)
  · cases h

theorem variant_replacedChildren {lib : Entries} {cur v : IR} {r : Rand}
    (h : (replacedChildren lib cur r).1 = some v) : Variant lib cur v := by
  unfold replacedChildren at h
  split at h
  · rename_i hboth
    rw [Bool.and_eq_true] at hboth
    cases h
    exact .both hboth.1 hboth.2 (offered_getRandomIR ..) (offered_getRandomIR ..)
  · cases h

theorem variant_strategyReplace {lib : Entries} {cur v : IR} {r : Rand} (h : (strategyReplace lib cur r).1 = some v) :
    Variant lib cur v := by
  unfold strategyReplace at h
  simp only [] at h
  split at h
  · exact variant_replacedChild h
  · split at h
    · exact variant_replacedChild h
    · exact variant_replacedChildren h

theorem variant_constrainedVariants {lib : Entries} {cur v : IR} {k : ℕ} {r : Rand}
    (h : v ∈ (constrainedVariants lib cur k r).1) : Variant lib cur v := by
  induction k generalizing r with
  | zero => cases h
  | succ k ih =>
    rw [constrainedVariants, List.mem_append, Option.mem_toList] at h
    rcases h with h | h
    · exact variant_strategyReplaceWithConstraint h
    · exact ih h

/-- Whatever `MutateIR` returns is a variant. -/
theorem variant_mutateIR {lib : Entries} {cur v : IR} {r : Rand} (h : v ∈ (mutateIR lib cur r).1) :
    Variant lib cur v := by
  rw [mutateIR, List.mem_append, Option.mem_toList] at h
  rcases h with h | h
  · exact variant_constrainedVariants h
  · exact variant_strategyReplace h

/-- The hash that `MutateIRs` keeps of a mutant: it goes through an `unsigned`. -/
def mutantHash (t : IR) : UInt64 := (extractStructure (fun _ => 0) t 0).1.hash.toUInt32.toUInt64

def addVariants (root : IR) (p : Path) : List IR → List IR × Finset UInt64 → List IR × Finset UInt64
  | [], acc => acc
  | v :: vs, (res, resHash) =>
    let newIrTree := root.replaceAt p v
    let tmpHash := mutantHash newIrTree
    if tmpHash ∈ resHash then addVariants root p vs (res, resHash)
    else addVariants root p vs (res ++ [deepCopy newIrTree], insert tmpHash resHash)

def mutatePositions (lib : Entries) (root : IR) :
    List Path → List IR × Finset UInt64 → Rand → (List IR × Finset UInt64) × Rand
  | [], acc, r => (acc, r)
  | p :: ps, acc, r =>
    if p = [] ∨ shouldMutate (root.subtreeAt p) = false then mutatePositions lib root ps acc r
    else
      let vs := mutateIR lib (root.subtreeAt p) r
      mutatePositions lib root ps (addVariants root p vs.1 acc) vs.2

def mutateIRs (lib : Entries) (root : IR) (r : Rand) : List IR × Rand :=
  let out := mutatePositions lib root root.postorder ([], {root.hash}) r
  (out.1.1, out.2)

theorem erase_node (n : IRNode) (l r : IR) : IR.erase (.node n l r) = .node n.erase (IR.erase l) (IR.erase r) := rfl

theorem erase_eq_nil {t : IR} : t.erase = .nil ↔ t = .nil := map_eq_nil

theorem copied_erase (n : IRNode) : n.erase.copied = n.copied := rfl

theorem deepCopy_node (n : IRNode) (l r : IR) :
    deepCopy (.node n l r) = .node n.copied (deepCopy l) (deepCopy r) := rfl

theorem deepCopy_erase (t : IR) : deepCopy t.erase = deepCopy t := by
  rw [deepCopy, deepCopy, IR.erase, ← comp_map]
  rfl

theorem erase_erase (t : IR) : t.erase.erase = t.erase := by
  rw [IR.erase, IR.erase, ← comp_map]
  rfl

theorem type?_erase (t : IR) : t.erase.type? = t.type? := by cases t <;> rfl

theorem dataType?_erase (t : IR) : t.erase.dataType? = t.dataType? := by cases t <;> rfl

theorem toStringImpl_erase (t : IR) : t.erase.toStringImpl = t.toStringImpl := by
  induction t with
  | nil => rfl
  | node n l r ihl ihr =>
    simp only [IR.erase] at ihl ihr
    simp only [IR.erase, map, IR.toStringImpl, ihl, ihr, map_eq_nil]
    rfl

theorem hash_erase (t : IR) : t.erase.hash = t.hash := by
  rw [IR.hash, IR.hash, IR.render, IR.render, toStringImpl_erase]

theorem hash_congr {t t' : IR} (h : t.erase = t'.erase) : t.hash = t'.hash := by
  rw [← hash_erase, h, hash_erase]

theorem tokens_erase (t : IR) : t.erase.tokens = t.tokens := by
  induction t with
  | nil => rfl
  | node n l r ihl ihr =>
    simp only [IR.erase] at ihl ihr
    simp only [IR.erase, map, IR.tokens, ihl, ihr]
    rfl

theorem erase_extractLeaf (n : IRNode) : (extractLeaf n).erase = extractLeaf n.erase := by
  simp only [extractLeaf, apply_ite IRNode.erase]
  rfl

theorem erase_extractStructure {uninit uninit' : StatementID → ScopeID} {t t' : IR} (h : t.erase = t'.erase)
    (id id' : StatementID) :
    IR.erase (extractStructure uninit t id).1 = IR.erase (extractStructure uninit' t' id').1 := by
  induction t generalizing t' id id' with
  | nil => rw [erase_eq_nil.mp h.symm]; rfl
  | node n l r ihl ihr =>
    cases t' with
    | nil => cases h
    | node n' l' r' =>
      rw [erase_node, erase_node, BinaryTree.node.injEq] at h
      obtain ⟨hn,hl,hr⟩ := h
      have hchild : ∀ {c c' : IR}, c.erase = c'.erase → (∀ {t' : IR}, c.erase = t'.erase → ∀ id id',
          IR.erase (extractStructure uninit c id).1 = IR.erase (extractStructure uninit' t' id').1) → ∀ id id',
          IR.erase (if c.dataType? = some .kFixUnit then (fixmeLeaf uninit id, id + 1)
            else extractStructure uninit c id).1 = IR.erase (if c'.dataType? = some .kFixUnit then
              (fixmeLeaf uninit' id', id' + 1) else extractStructure uninit' c' id').1 := by
        intro c c' hc ih id id'
        have hdata : c.dataType? = c'.dataType? := by rw [← dataType?_erase, hc, dataType?_erase]
        rw [hdata]
        split
        · rfl
        · exact ih hc id id'
      have hnil : ∀ {c c' : IR}, c.erase = c'.erase → (c = .nil ↔ c' = .nil) := fun hc => by
        rw [← erase_eq_nil, hc, erase_eq_nil]
      simp only [extractStructure, erase_node, hnil hl, hnil hr]
      rw [hchild hl ihl, hchild hr ihr]
      congr 1
      split
      · rw [erase_extractLeaf, erase_extractLeaf, hn]
      · exact hn

theorem mutantHash_eq {t t' : IR} (h : t.erase = t'.erase) (uninit : StatementID → ScopeID) (id : StatementID) :
    (extractStructure uninit t id).1.hash.toUInt32.toUInt64 = mutantHash t' := by
  rw [mutantHash, hash_congr (erase_extractStructure h id 0)]

theorem erase_replaceAt {t t' u u' : IR} (h : t.erase = t'.erase) (hu : u.erase = u'.erase) (p : Path) :
    IR.erase (t.replaceAt p u) = IR.erase (t'.replaceAt p u') := by
  simp only [IR.erase] at h hu
  rw [IR.erase, IR.erase, replaceAt_map, replaceAt_map, h, hu]

end PolyGlot
