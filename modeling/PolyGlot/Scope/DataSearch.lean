import PolyGlot.Scope.Symbols

set_option autoImplicit false

/-! # Searches by data type

`search_by_data_type` has two overloads: one returns the first match, the other
appends every match to a vector. Both turn back at a match and at a node of the
forbidden type.
-/
namespace PolyGlot

open BinaryTree

namespace IR

def searchInto (type forbid : DataType) (goInside : Bool) : IR → List IR → List IR
  | .nil, result => result
  | .node n l r, result =>
    if n.dataType ≠ type ∧ forbidden forbid n then result
    else
      let result := if n.dataType = type then result ++ [.node n l r] else result
      if n.dataType ≠ type ∨ goInside then
        searchInto type forbid goInside r (searchInto type forbid goInside l result)
      else result

/-- `q` leads to a node of the wanted type, and no node above it is of the wanted
type or of the forbidden one. -/
def IsOutermostMatch (type forbid : DataType) (t : IR) (q : Path) : Prop :=
  (∃ n l r, t.subtreeAt q = .node n l r ∧ n.dataType = type) ∧
  ∀ q' n l r, q' <+: q → q' ≠ q → t.subtreeAt q' = .node n l r →
    n.dataType ≠ type ∧ ¬ (forbid ≠ .kDataDefault ∧ n.dataType = forbid)

variable {type forbid : DataType}

theorem searchInto_eq (t : IR) (result : List IR) :
    searchInto type forbid false t result = result ++ t.searchAllByDataType type forbid := by
  unfold searchAllByDataType
  induction t generalizing result with
  | nil => simp [searchInto, outermost]
  | node n l r ihl ihr =>
    rw [searchInto, outermost, ofType]
    by_cases htype : n.dataType = type
    · simp [htype]
    · by_cases hforbid : forbidden forbid n = true
      · simp [htype, hforbid]
      · simp [htype, hforbid, ihl, ihr]

theorem isAt_iff {p : IRNode → Bool} {t : IR} {q : Path} :
    IsAt p t q ↔ ∃ n l r, t.subtreeAt q = .node n l r ∧ p n = true := by
  unfold IsAt
  cases t.subtreeAt q <;> simp [root?]

theorem isOutermostMatch_iff {t : IR} {q : Path} :
    IsOutermostMatch type forbid t q ↔ IsOutermost (ofType type) (forbidden forbid) t q := by
  unfold IsOutermostMatch IsOutermost
  simp only [isAt_iff, ofType, forbidden, decide_eq_true_eq, Bool.and_eq_true]
  apply and_congr_right
  intro _
  constructor
  · intro h q' hq' hne
    constructor
    · rintro ⟨n,l,r,hnode,htype⟩
      exact (h q' n l r hq' hne hnode).1 htype
    · rintro ⟨n,l,r,hnode,hforbid⟩
      exact (h q' n l r hq' hne hnode).2 hforbid
  · intro h q' n l r hq' hne hnode
    obtain ⟨htype,hforbid⟩ := h q' hq' hne
    exact ⟨fun heq => htype ⟨n,l,r,hnode,heq⟩,fun heq => hforbid ⟨n,l,r,hnode,heq⟩⟩

/-- Without `go_inside` the vector gets the outermost matches, in pre-order and
once each, and the other overload returns the first of them. -/
theorem searchInto_outermost (t : IR) (type forbid : DataType) (result : List IR) :
    ∃ places : List Path, places.Sublist t.preorder ∧ places.Nodup ∧
      (∀ q, q ∈ places ↔ IsOutermostMatch type forbid t q) ∧
      searchInto type forbid false t result = result ++ places.map t.subtreeAt ∧
      t.searchByDataType type forbid = (places.map t.subtreeAt).headD .nil := by
  refine ⟨outermostPlaces (ofType type) (forbidden forbid) t,outermostPlaces_sublist _ _ t,
    outermostPlaces_nodup _ _ t,?_,?_,?_⟩
  · intro q
    rw [isOutermostMatch_iff, mem_outermostPlaces]
  · rw [searchInto_eq, searchAllByDataType, outermost_eq_map]
  · rw [searchByDataType_eq, firstOutermost, outermost_eq_map]

end IR

end PolyGlot
