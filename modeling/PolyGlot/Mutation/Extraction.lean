import PolyGlot.Mutation.Value

set_option autoImplicit false

/-! # Extracting twice

The leaves that `ExtractStructure` normalises stay as they are in a second pass;
the placeholders that it puts in are string leaves that the second pass
normalises.
-/
namespace PolyGlot

open BinaryTree

theorem extractLeaf_extractLeaf (n : IRNode) : extractLeaf (extractLeaf n) = extractLeaf n := by
  obtain ⟨type,op,data,dataType,scopeType,scopeId,statementId⟩ := n
  cases data with
  | monostate | int i | double d => simp [extractLeaf, IRNode.containString, IRNode.containInt, IRNode.containFloat]
  | string s =>
    by_cases hd : dataType = .kDataDefault <;>
      simp [extractLeaf, IRNode.containString, IRNode.containInt, IRNode.containFloat, hd]

theorem dataType_extractLeaf (n : IRNode) : (extractLeaf n).dataType = n.dataType := by
  simp only [extractLeaf, apply_ite IRNode.dataType, ite_self]

def NoFixUnit (t : IR) : Prop := ∀ p ≠ [], IR.dataType? (t.subtreeAt p) ≠ some .kFixUnit

theorem noFixUnit_node {n : IRNode} {l r : IR} : NoFixUnit (.node n l r) ↔
    (l.dataType? ≠ some .kFixUnit ∧ NoFixUnit l) ∧ (r.dataType? ≠ some .kFixUnit ∧ NoFixUnit r) := by
  constructor
  · intro h
    exact ⟨⟨h [.left] (by simp),fun p _ => h (.left :: p) (by simp)⟩,
      ⟨h [.right] (by simp),fun p _ => h (.right :: p) (by simp)⟩⟩
  · rintro ⟨⟨hl,hls⟩,⟨hr,hrs⟩⟩ p hp
    obtain ⟨s,q,rfl⟩ := List.exists_cons_of_ne_nil hp
    have hchild : ∀ {c : IR}, c.dataType? ≠ some .kFixUnit → NoFixUnit c →
        IR.dataType? (c.subtreeAt q) ≠ some .kFixUnit := by
      intro c hc hcs
      by_cases hq : q = []
      · rw [hq]
        exact hc
      · exact hcs q hq
    cases s with
    | left => exact hchild hl hls
    | right => exact hchild hr hrs

section
variable (uninit : StatementID → ScopeID)

theorem dataType?_extractStructure (t : IR) (id : StatementID) :
    IR.dataType? (extractStructure uninit t id).1 = t.dataType? := by
  cases t with
  | nil => rfl
  | node n l r =>
    simp only [extractStructure_node, IR.dataType?, apply_ite IRNode.dataType, dataType_extractLeaf, ite_self]

theorem dataType?_extractedChild (c : IR) (id : StatementID) :
    IR.dataType? (extractedChild uninit c id).1 ≠ some .kFixUnit := by
  unfold extractedChild
  split
  · simp [fixmeLeaf, IR.ofData, IR.dataType?]
  · rw [dataType?_extractStructure]
    assumption

theorem extractedChild_eq_nil {c : IR} {id : StatementID} : (extractedChild uninit c id).1 = .nil ↔ c = .nil := by
  cases c with
  | nil => simp [extractedChild, extractStructure, IR.dataType?]
  | node n l r =>
    unfold extractedChild
    split <;> simp [fixmeLeaf, IR.ofData, extractStructure_node]

theorem le_extractStructure (t : IR) (id : StatementID) : id ≤ (extractStructure uninit t id).2 := by
  induction t generalizing id with
  | nil => exact le_rfl
  | node n l r ihl ihr =>
    have hchild : ∀ c : IR, (∀ id, id ≤ (extractStructure uninit c id).2) → ∀ id, id ≤ (extractedChild uninit c id).2 := by
      intro c hc id
      unfold extractedChild
      split
      · exact Nat.le_succ id
      · exact hc id
    rw [extractStructure_node]
    exact (hchild l ihl id).trans (hchild r ihr _)

/-- A place holds what becomes of the subtree there, or lies in a placeholder. -/
theorem subtreeAt_extractStructure (t : IR) (id : StatementID) (p : Path) :
    (∃ i, id ≤ i ∧ (extractStructure uninit t id).1.subtreeAt p = (extractStructure uninit (t.subtreeAt p) i).1) ∨
      ∃ q i, q <+: p ∧ id ≤ i ∧ (extractStructure uninit t id).1.subtreeAt q = fixmeLeaf uninit i := by
  induction p generalizing t id with
  | nil => exact .inl ⟨id,le_rfl,rfl⟩
  | cons s p ih =>
    have hchild : ∃ i, id ≤ i ∧ (extractStructure uninit t id).1.child s = (extractedChild uninit (t.child s) i).1 := by
      cases t with
      | nil => exact ⟨id,le_rfl,by simp [extractedChild, extractStructure, IR.dataType?]⟩
      | node n l r =>
        cases s with
        | left => exact ⟨id,le_rfl,rfl⟩
        | right =>
          refine ⟨(extractedChild uninit l id).2,?_,rfl⟩
          unfold extractedChild
          split
          · exact Nat.le_succ id
          · exact le_extractStructure uninit l id
    obtain ⟨i,hi,hchild⟩ := hchild
    rw [subtreeAt_cons, hchild, extractedChild]
    split
    · refine .inr ⟨[s],i,List.cons_prefix_cons.mpr ⟨rfl,List.nil_prefix⟩,hi,?_⟩
      rw [subtreeAt_cons, hchild, extractedChild, if_pos ‹_›]
      rfl
    · rename_i hunit
      rcases ih (t.child s) i with ⟨j,hj,h⟩ | ⟨q,j,hq,hj,h⟩
      · exact .inl ⟨j,hi.trans hj,h⟩
      · refine .inr ⟨s :: q,j,List.cons_prefix_cons.mpr ⟨rfl,hq⟩,hi.trans hj,?_⟩
        rw [subtreeAt_cons, hchild, extractedChild, if_neg hunit]
        exact h

/-- No unit to fix is left below the root. -/
theorem noFixUnit_extractStructure (t : IR) (id : StatementID) : NoFixUnit (extractStructure uninit t id).1 := by
  induction t generalizing id with
  | nil => simp [extractStructure, NoFixUnit, IR.dataType?]
  | node n l r ihl ihr =>
    have hnil : NoFixUnit .nil := by simp [NoFixUnit, IR.dataType?]
    have hchild : ∀ c : IR, (∀ id, NoFixUnit (extractStructure uninit c id).1) → ∀ id,
        NoFixUnit (extractedChild uninit c id).1 := by
      intro c hc id
      unfold extractedChild
      split
      · exact noFixUnit_node.mpr ⟨⟨by simp [IR.dataType?],hnil⟩,by simp [IR.dataType?],hnil⟩
      · exact hc id
    rw [extractStructure_node, noFixUnit_node]
    exact ⟨⟨dataType?_extractedChild uninit l _,hchild l ihl _⟩,dataType?_extractedChild uninit r _,hchild r ihr _⟩

/-- A placeholder does not survive. -/
theorem erase_extractStructure_fixmeLeaf (id id' : StatementID) :
    IR.erase (extractStructure uninit (fixmeLeaf uninit id) id').1 ≠ IR.erase (fixmeLeaf uninit id) := by
  have hsecond : (extractStructure uninit (fixmeLeaf uninit id) id').1 =
      .node ⟨kUnknown,none,.string ['\'','x','\''],.kDataDefault,.kScopeDefault,uninit id,id⟩ .nil .nil := rfl
  rw [hsecond]
  simp [fixmeLeaf, IR.ofData, erase_node, IRNode.erase, FIXMETAG]

/-- A second pass changes nothing but the ids exactly when the first pass found
no unit to fix below the root. -/
theorem extractStructure_idempotent_iff (t : IR) (id id' : StatementID) :
    IR.erase (extractStructure uninit (extractStructure uninit t id).1 id').1 =
      IR.erase (extractStructure uninit t id).1 ↔ NoFixUnit t := by
  induction t generalizing id id' with
  | nil => simp [extractStructure, NoFixUnit, IR.dataType?]
  | node n l r ihl ihr =>
    have hchild : ∀ c : IR, (∀ id id', IR.erase (extractStructure uninit (extractStructure uninit c id).1 id').1 =
        IR.erase (extractStructure uninit c id).1 ↔ NoFixUnit c) → ∀ id id',
        (IR.erase (extractedChild uninit (extractedChild uninit c id).1 id').1 =
          IR.erase (extractedChild uninit c id).1 ↔ c.dataType? ≠ some .kFixUnit ∧ NoFixUnit c) := by
      intro c ih id id'
      have hsecond : extractedChild uninit (extractedChild uninit c id).1 id' =
          extractStructure uninit (extractedChild uninit c id).1 id' := if_neg (dataType?_extractedChild uninit c id)
      rw [hsecond]
      by_cases hc : c.dataType? = some .kFixUnit
      · rw [extractedChild, if_pos hc]
        simpa [hc] using erase_extractStructure_fixmeLeaf uninit id id'
      · rw [extractedChild, if_neg hc, ih]
        simp [hc]
    have hnode : (if l = .nil ∧ r = .nil then extractLeaf (if l = .nil ∧ r = .nil then extractLeaf n else n)
        else if l = .nil ∧ r = .nil then extractLeaf n else n) = if l = .nil ∧ r = .nil then extractLeaf n else n := by
      split
      · exact extractLeaf_extractLeaf n
      · rfl
    rw [extractStructure_node, extractStructure_node]
    simp only [extractedChild_eq_nil, hnode, erase_node, node.injEq, true_and]
    rw [noFixUnit_node, hchild l ihl, hchild r ihr]

end

def unitProgram : IR :=
  .node ⟨0,some .empty,.monostate,.kDataDefault,.kScopeGlobal,0,1⟩
    (.node ⟨1,none,.string ['a'],.kFixUnit,.kScopeDefault,0,0⟩ .nil .nil) .nil

/-- The first pass puts a placeholder there, the second a literal. -/
theorem unitProgram_placeholder_lost :
    (extractStructure id unitProgram 2).1.render = FIXMETAG ++ [' '] ∧
    ¬ IR.erase (extractStructure id (extractStructure id unitProgram 2).1 3).1 =
      IR.erase (extractStructure id unitProgram 2).1 := by
  constructor
  · decide
  · decide

end PolyGlot
