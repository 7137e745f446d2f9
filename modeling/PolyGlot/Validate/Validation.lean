import PolyGlot.Generator.Typing
import PolyGlot.Scope.Survival

set_option autoImplicit false

/-! # The semantic validator

`Validate` puts one placeholder for each unit that needs fixing, builds the
scopes and the symbol tables, and gives every placeholder the text of an
expression that its place can use.
-/
namespace PolyGlot

open BinaryTree Prog

inductive ValidationError
  | kSuccess
  | kNoSymbolToUse
  deriving DecidableEq, Repr

/-- `IR(GetUnknownType(), "FIXME")` with the ids of the unit `n`. -/
def placeholder (n : IRNode) : IR :=
  .node ⟨kUnknown,none,.string FIXMETAG,.kDataDefault,.kScopeDefault,n.scopeId,n.statementId⟩ .nil .nil

/-- What `MarkFixMe` puts where the child `c` is; `marked` is what the call for
the child makes of it. -/
def markChild (c marked : IR) : IR :=
  match c with
  | .nil => .nil
  | .node n l r =>
    if n.dataType = .kFixUnit then if IR.needFixing (.node n l r) then placeholder n else .node n l r
    else marked

def markFixMe : IR → IR
  | .nil => .nil
  | .node n l r => .node n (markChild l (markFixMe l)) (markChild r (markFixMe r))

/-- The placeholders that `MarkFixMe` makes, each of which takes an id first. -/
def placeholdersMade : IR → ℕ
  | .nil => 0
  | .node _ l r => madeForChild l (placeholdersMade l) + madeForChild r (placeholdersMade r)
where
  madeForChild (c : IR) (below : ℕ) : ℕ :=
    if c.dataType? = some .kFixUnit then if IR.needFixing c then 1 else 0 else below

structure FixDecision where
  ir : Path
  type : TypeID

def isFixme (n : IRNode) : Bool := n.holdsString FIXMETAG

def pushChild (p : Path) (s : Side) (c : IR) : List (Path × IR) := if c = .nil then [] else [(p ++ [s],c)]

def selectLoop : ℕ → List (Path × IR) → List FixDecision
  | 0, _ => []
  | _ + 1, [] => []
  | fuel + 1, (_, .nil) :: stk => selectLoop fuel stk
  | fuel + 1, (p, .node n l r) :: stk =>
    if isFixme n then ⟨p,SpecialType.kAllTypes⟩ :: selectLoop fuel stk
    else selectLoop fuel (pushChild p .left l ++ (pushChild p .right r ++ stk))

def selectFixStrategy (root : IR) : List FixDecision := selectLoop (2 * root.values.length + 2) [([],root)]

section
variable (weak : Bool) (s : CollectState)

def applyFix (decision : FixDecision) (root : IR) : Prog Fault Rand (Bool × IR) :=
  match root.subtreeAt decision.ir with
  | .nil => fail .nullDeref
  | .node n l r => do
    assertThat (isFixme n = true) .assertion
    let text ← Generator.generateExpression weak s.scopes s.types n decision.type
    return (true,root.replaceAt decision.ir (.node { n with data := .string text } l r))

def applyFixes : List FixDecision → IR → Prog Fault Rand (ValidationError × IR)
  | [], root => return (.kSuccess,root)
  | decision :: decisions, root => do
    let fixed ← applyFix weak s decision root
    if fixed.1 then applyFixes decisions fixed.2 else return (.kNoSymbolToUse,fixed.2)

end

structure Validated where
  error : ValidationError
  root : IR
  types : TypeSystem

/-- `before` saw the static members of class `TypeSystem` before the call. -/
def validate (cfg : Configuration) (before : TypeSystem) (root : IR) : Prog Fault Rand Validated := do
  assertThat (root ≠ .nil) .nullDeref
  let built ← liftM (buildScopeTreeWithSymbolTable cfg before (markFixMe root))
  let fixed ← applyFixes cfg.isWeakType built.2 (selectFixStrategy built.1) built.1
  return ⟨fixed.1,fixed.2,built.2.types⟩

/-- The stack gives the outermost nodes in pre-order. -/
theorem selectLoop_eq {fuel : ℕ} {stk : List (Path × IR)}
    (hfuel : (stk.map fun e => 2 * e.2.values.length + 1).sum < fuel) :
    selectLoop fuel stk = stk.flatMap fun e =>
      (outermostPaths isFixme e.2).map fun q => ⟨e.1 ++ q,SpecialType.kAllTypes⟩ := by
  induction fuel generalizing stk with
  | zero => omega
  | succ fuel ih =>
    rcases stk with _ | ⟨⟨p,_ | ⟨n,l,r⟩⟩,stk⟩
    · rfl
    · rw [selectLoop, ih (by simp at hfuel ⊢; omega)]
      simp [outermostPaths]
    · rw [selectLoop, List.flatMap_cons, outermostPaths]
      simp only [List.map_cons, List.sum_cons, values, List.length_cons, List.length_append] at hfuel
      by_cases hn : isFixme n = true
      · rw [if_pos hn, if_pos hn, ih (by omega)]
        simp
      · have hpush : ∀ (s : Side) (c : IR), (pushChild p s c).flatMap (fun e =>
            (outermostPaths isFixme e.2).map fun q => (⟨e.1 ++ q,SpecialType.kAllTypes⟩ : FixDecision)) =
              (outermostPaths isFixme c).map fun q => ⟨p ++ s :: q,SpecialType.kAllTypes⟩ := by
          intro s c
          unfold pushChild
          split
          · rename_i hc
            rw [hc]
            rfl
          · simp
        have hsize : ∀ (s : Side) (c : IR),
            ((pushChild p s c).map fun e => 2 * e.2.values.length + 1).sum ≤ 2 * c.values.length + 1 := by
          intro s c
          unfold pushChild
          split <;> simp
        have hl := hsize .left l
        have hr := hsize .right r
        rw [if_neg hn, if_neg hn, ih, List.flatMap_append, List.flatMap_append, hpush, hpush, List.map_append,
          List.map_map, List.map_map, List.append_assoc]
        · rfl
        · simp only [List.map_append, List.sum_append]
          omega

theorem selectFixStrategy_eq (root : IR) : selectFixStrategy root =
    (outermostPaths isFixme root).map fun q => ⟨q,SpecialType.kAllTypes⟩ := by
  rw [selectFixStrategy, selectLoop_eq (by simp)]
  simp

end PolyGlot
