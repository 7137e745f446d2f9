import PolyGlot.Generator.Expression
import PolyGlot.Support.Choices

set_option autoImplicit false

/-! # The choices of the generator

The generator looks at no random value before it takes it, so what it returns
depends on the values it takes only.
-/
namespace PolyGlot

namespace Generator

open Prog

def randPart : StreamPart GenState := ⟨GenState.rand,fun r s => { s with rand := r },fun _ => rfl,fun _ _ _ => rfl⟩

section
variable {weak : Bool} {ts : TypeSystem} {m : VarMaps} {sat : Satisfiable} {core : TypeID → Gen Str}

theorem getRandInt_reads (range : ℕ) : Reads randPart (getRandInt range) := by
  intro s n t hrun
  unfold getRandInt at hrun ⊢
  by_cases hrange : range = 0
  · rw [if_pos hrange] at hrun
    cases hrun
  · rw [if_neg hrange] at hrun
    cases hrun
    refine ⟨[s.rand.head],(Stream'.eta s.rand).symm,fun r => ?_⟩
    rw [if_neg hrange]
    rfl

theorem randomPick_reads {α : Type} (l : List α) : Reads randPart (randomPick l) := by
  intro s a t hrun
  unfold randomPick at hrun ⊢
  split at hrun
  · cases hrun
  · rename_i hpick
    cases hrun
    refine ⟨[s.rand.head],(Stream'.eta s.rand).symm,fun r => ?_⟩
    have hhead : (randPart.put ([s.rand.head] ++ₛ r) s).rand.head = s.rand.head := rfl
    rw [hhead, hpick]
    rfl

theorem genRandomNumString_reads : Reads randPart genRandomNumString :=
  (getRandInt_reads _).bind fun _ => .pure _

theorem appendArguments_reads (hcore : ∀ k, Reads randPart (core k)) (ks : List TypeID) (res : Str) :
    Reads randPart (appendArguments core ks res) := by
  induction ks generalizing res with
  | nil => exact .pure _
  | cons k ks ih => exact (hcore k).bind fun _ => ih _

theorem functionCallGenHandler_reads (hcore : ∀ k, Reads randPart (core k)) (functionMap : VectorMap TypeID Str) :
    Reads randPart (functionCallGenHandler ts core functionMap) := by
  unfold functionCallGenHandler
  apply Reads.assertThat.bind
  intro _
  apply (randomPick_reads _).bind
  intro pickFunc
  split
  · exact .fail _
  · apply Reads.bind
    · exact Reads.modify (fun _ => rfl) fun _ _ => rfl
    · exact fun _ => (appendArguments_reads hcore _ _).bind fun _ => .pure _

theorem directMembers_reads (targetType : TypeID) (members : List (TypeID × List Str)) :
    Reads randPart (directMembers targetType members) := by
  induction members with
  | nil => exact .pure _
  | cons member rest ih =>
    unfold directMembers
    apply Reads.ite
    · intro _
      exact (randomPick_reads _).bind fun _ => ih.bind fun _ => .pure _
    · exact fun _ => ih

theorem memberLoop_reads {search : TypeID → Finset TypeID → Gen (Str × Finset TypeID)}
    (hsearch : ∀ c visit, Reads randPart (search c visit)) (targetType : TypeID) (members : List (TypeID × List Str))
    (found : Found) : Reads randPart (memberLoop ts search targetType members found) := by
  induction members generalizing found with
  | nil => exact .pure _
  | cons member rest ih =>
    unfold memberLoop
    apply Reads.ite
    · intro _
      apply Reads.ite
      · exact fun _ => ih _
      · intro _
        apply (hsearch _ _).bind
        intro tmpRes
        apply Reads.ite
        · exact fun _ => ih _
        · exact fun _ => (randomPick_reads _).bind fun _ => ih _
    · intro _
      apply Reads.ite
      · intro _
        apply Reads.ite
        · exact fun _ => (randomPick_reads _).bind fun _ => ih _
        · intro _
          split
          · exact .fail _
          · exact .ite (fun _ => ih _) fun _ => ih _
      · exact fun _ => ih _

theorem callMember_reads (hcore : ∀ k, Reads randPart (core k)) (funcSol : List FunctionType) :
    Reads randPart (callMember ts core funcSol) :=
  (randomPick_reads _).bind fun _ => (functionCallGenHandler_reads hcore _).bind fun _ => .pure _

theorem pickSolution_reads (hcore : ∀ k, Reads randPart (core k)) (allSol : List Str) (funcSol : List FunctionType) :
    Reads randPart (pickSolution ts core allSol funcSol) := by
  unfold pickSolution
  apply Reads.ite
  · exact fun _ => randomPick_reads _
  · intro _
    apply Reads.ite
    · exact fun _ => callMember_reads hcore _
    · intro _
      apply Reads.ite
      · intro _
        exact (getRandInt_reads _).bind fun _ => .ite (fun _ => callMember_reads hcore _) fun _ => randomPick_reads _
      · exact fun _ => .pure _

theorem getClassMemberByTypeNoDuplicate_reads (hcore : ∀ k, Reads randPart (core k)) (targetType : TypeID) (fuel : ℕ)
    (type : TypeID) (visit : Finset TypeID) :
    Reads randPart (getClassMemberByTypeNoDuplicate ts core targetType fuel type visit) := by
  induction fuel generalizing type visit with
  | zero => exact .fail _
  | succ fuel ih =>
    unfold getClassMemberByTypeNoDuplicate
    split
    · exact .fail _
    · apply (directMembers_reads _ _).bind
      intro direct
      apply (memberLoop_reads ih _ _ _).bind
      intro found
      exact (pickSolution_reads hcore _ _).bind fun _ => .pure _

theorem wholeVariable_reads (c : TypeID) (x : Str) : Reads randPart (wholeVariable weak ts c x) := by
  unfold wholeVariable
  apply Reads.ite
  · intro _
    apply (getRandInt_reads 4).bind
    intro coin
    apply Reads.ite
    · exact fun _ => .pure _
    · intro _
      split
      · exact .pure _
      · exact .ite (fun _ => .pure _) fun _ => .pure _
  · exact fun _ => .pure _

theorem structureMemberGenHandler_reads (hcore : ∀ k, Reads randPart (core k)) (compoundVarMap : VectorMap TypeID Str)
    (memberType : TypeID) : Reads randPart (structureMemberGenHandler weak ts core compoundVarMap memberType) := by
  unfold structureMemberGenHandler
  apply (randomPick_reads _).bind
  intro compound
  apply Reads.assertThat.bind
  intro _
  apply (randomPick_reads _).bind
  intro compoundVar
  apply ((getClassMemberByTypeNoDuplicate_reads hcore _ _ _ _).bind fun _ => .pure _).bind
  intro res
  apply Reads.ite
  · exact fun _ => Reads.assertThat.bind fun _ => wholeVariable_reads _ _
  · exact fun _ => .pure _

theorem updatePointerVar_reads : Reads randPart (updatePointerVar m) := by
  unfold updatePointerVar
  split
  · exact .pure _
  · exact .ite (fun _ => .pure _) fun _ => .fail _

theorem pickType_reads (type : TypeID) : Reads randPart (pickType ts sat type) := by
  unfold pickType
  apply Reads.ite
  · intro _
    apply (randomPick_reads _).bind
    intro entry
    apply Reads.ite
    · intro _
      apply (getRandInt_reads _).bind
      intro coin
      apply Reads.ite
      · exact fun _ => .pure _
      · intro _
        split
        · exact .fail _
        · exact .pure _
    · exact fun _ => .pure _
  · exact fun _ => .pure _

theorem makeValue_reads (hcore : ∀ k, Reads randPart (core k)) (type : TypeID) :
    Reads randPart (makeValue weak ts m sat core type) := by
  unfold makeValue
  apply Reads.ite
  · exact fun _ => genRandomNumString_reads
  · intro _
    apply Reads.get_bind
    · intro s
      apply Reads.ite
      · exact fun _ => genRandomNumString_reads
      · intro _
        apply (getRandInt_reads _).bind
        intro choice
        apply Reads.ite
        · exact fun _ => .fail _
        · intro _
          apply Reads.ite
          · exact fun _ => functionCallGenHandler_reads hcore _
          · intro _
            apply Reads.ite
            · exact fun _ => structureMemberGenHandler_reads hcore _ _
            · exact fun _ => Reads.assertThat.bind fun _ => randomPick_reads _
    · exact fun _ _ => rfl

theorem generateExpressionByTypeCore_reads (fuel : ℕ) (type : TypeID) :
    Reads randPart (generateExpressionByTypeCore weak ts m sat fuel type) := by
  induction fuel generalizing type with
  | zero => exact .fail _
  | succ fuel ih =>
    unfold generateExpressionByTypeCore
    apply Reads.get_bind
    · intro s
      apply Reads.ite
      · exact fun _ => genRandomNumString_reads
      · intro _
        apply Reads.bind
        · exact Reads.modify (fun _ => rfl) fun _ _ => rfl
        · intro _
          apply (Reads.onlyIf updatePointerVar_reads).bind
          intro _
          apply (pickType_reads _).bind
          intro type
          exact .ite (fun _ => makeValue_reads ih _) fun _ => genRandomNumString_reads
    · exact fun _ _ => rfl

/-- A call takes some random values, and is told nothing by the others. -/
theorem generateExpression_reads (st : ScopeTree) (ir : IRNode) (type : TypeID) :
    Reads .all (generateExpression weak st ts ir type) := by
  intro rand res rand' hrun
  unfold generateExpression at hrun ⊢
  dsimp only at hrun ⊢
  cases hsat : collectSatisfiableTypes weak ts (collectAllVarDefinitionByType st ts ir) with
  | error f =>
    rw [hsat] at hrun
    cases hrun
  | ok sat =>
    rw [hsat] at hrun
    dsimp only at hrun ⊢
    split at hrun
    · cases hrun
    · rename_i text s hcore
      by_cases htext : text = []
      · rw [if_pos htext] at hrun
        cases hrun
      · rw [if_neg htext] at hrun
        cases hrun
        obtain ⟨xs,hxs,hany⟩ := generateExpressionByTypeCore_reads 52 type ⟨rand,0,0⟩ _ s hcore
        refine ⟨xs,hxs,fun r => ?_⟩
        have hsame : generateExpressionByTypeCore weak ts (collectAllVarDefinitionByType st ts ir) sat 52 type
            ⟨xs ++ₛ r,0,0⟩ = .ok (res,{ s with rand := r }) := hany r
        dsimp only [StreamPart.all]
        rw [hsame]
        dsimp only
        rw [if_neg htext]

end

end Generator

end PolyGlot
