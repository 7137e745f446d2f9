import PolyGlot.Generator.Members

set_option autoImplicit false

/-! # What is made without a call of the core

The parts of the generator that take random values and leave the counters as they
are.
-/
namespace PolyGlot

namespace Generator

open Prog

structure Quiet {α : Type} (m : Gen α) (Q : α → Prop) : Prop where
  returns : ∀ s a t, m s = .ok (a,t) → Q a ∧ ∃ r, t = { s with rand := r }
  fails : ∀ s e, m s = .error e → e ≠ .contract ∧ e ≠ .outOfFuel

section Quiet
variable {α β : Type} {m m' : Gen α} {Q R : α → Prop}

/-- What does not depend on the random values is kept. -/
theorem Quiet.ensuresOr (h : Quiet m Q) {E : Fault → Prop} {I : GenState → Prop}
    (hE : ∀ e, e ≠ .contract ∧ e ≠ .outOfFuel → E e) (hI : ∀ s r, I s → I { s with rand := r }) : EnsuresOr E I m Q := by
  constructor
  · intro s a t hs hrun
    obtain ⟨hQ,r,rfl⟩ := h.returns s a t hrun
    exact ⟨hQ,hI s r hs⟩
  · intro s e _ hrun
    exact hE e (h.fails s e hrun)

theorem Quiet.mono (h : Quiet m Q) (hQR : ∀ a, Q a → R a) : Quiet m R :=
  ⟨fun s a t hrun => (h.returns s a t hrun).imp_left (hQR a),h.fails⟩

theorem Quiet.pure {a : α} (h : Q a) : Quiet (Pure.pure a) Q := by
  refine ⟨fun s b t hrun => ?_,fun s e hrun => ?_⟩
  · cases hrun
    exact ⟨h,s.rand,rfl⟩
  · cases hrun

theorem Quiet.fail {e : Fault} (he : e ≠ .contract ∧ e ≠ .outOfFuel) : Quiet (fail e : Gen α) Q := by
  refine ⟨fun s a t hrun => ?_,fun s e' hrun => ?_⟩
  · cases hrun
  · cases hrun
    exact he

theorem Quiet.bind {f : α → Gen β} {S : β → Prop} (h : Quiet m Q) (hf : ∀ a, Q a → Quiet (f a) S) : Quiet (m >>= f) S := by
  constructor
  · intro s b u hrun
    obtain ⟨a,t,hm,hrun⟩ := of_bind hrun
    obtain ⟨hQ,r,rfl⟩ := h.returns s a t hm
    exact (hf a hQ).returns { s with rand := r } b u hrun
  · intro s e hrun
    rw [run_bind] at hrun
    cases hm : m s with
    | error e' =>
      rw [hm] at hrun
      cases hrun
      exact h.fails s e hm
    | ok p =>
      rw [hm] at hrun
      exact (hf p.1 (h.returns s p.1 p.2 hm).1).fails p.2 e hrun

theorem Quiet.ite {c : Prop} [Decidable c] (hm : c → Quiet m Q) (hm' : ¬ c → Quiet m' Q) : Quiet (if c then m else m') Q := by
  split
  · exact hm ‹_›
  · exact hm' ‹_›

theorem Quiet.assertThat {c : Prop} [Decidable c] {e : Fault} (he : e ≠ .contract ∧ e ≠ .outOfFuel) :
    Quiet (assertThat c e) fun _ => True := by
  unfold Prog.assertThat
  exact .ite (fun _ => .pure True.intro) fun _ => .fail he

theorem Quiet.onlyIf {c : Prop} [Decidable c] {m : Gen Unit} (h : Quiet m fun _ => True) :
    Quiet (onlyIf c m) fun _ => True := by
  unfold Prog.onlyIf
  exact .ite (fun _ => h) fun _ => .pure True.intro

theorem randomPick_quiet (l : List α) : Quiet (randomPick l) (· ∈ l) := by
  refine ⟨fun s a t hrun => ⟨mem_of_randomPick hrun,?_⟩,fun s e hrun => ?_⟩
  · unfold randomPick at hrun
    split at hrun
    · cases hrun
    · cases hrun
      exact ⟨s.rand.tail,rfl⟩
  · unfold randomPick at hrun
    split at hrun
    · cases hrun
      decide
    · cases hrun

theorem getRandInt_quiet (range : ℕ) : Quiet (getRandInt range) fun _ => True := by
  refine ⟨fun s a t hrun => ⟨True.intro,?_⟩,fun s e hrun => ?_⟩
  · unfold getRandInt at hrun
    split at hrun
    · cases hrun
    · cases hrun
      exact ⟨s.rand.tail,rfl⟩
  · unfold getRandInt at hrun
    split at hrun
    · cases hrun
      decide
    · cases hrun

theorem genRandomNumString_quiet : Quiet genRandomNumString fun _ => True :=
  (getRandInt_quiet _).bind fun _ _ => .pure True.intro

theorem directMembers_quiet (targetType : TypeID) (members : List (TypeID × List Str)) :
    Quiet (directMembers targetType members) fun _ => True := by
  induction members with
  | nil => exact .pure True.intro
  | cons member rest ih =>
    unfold directMembers
    apply Quiet.ite
    · intro _
      apply (randomPick_quiet member.2).bind
      intro name _
      exact ih.bind fun _ _ => .pure True.intro
    · exact fun _ => ih

theorem wholeVariable_quiet (weak : Bool) (ts : TypeSystem) (c : TypeID) (x : Str) :
    Quiet (wholeVariable weak ts c x) fun _ => True := by
  unfold wholeVariable
  apply Quiet.ite
  · intro _
    apply (getRandInt_quiet 4).bind
    intro coin _
    apply Quiet.ite
    · exact fun _ => .pure True.intro
    · intro _
      split
      · exact .pure True.intro
      · exact .ite (fun _ => .pure True.intro) fun _ => .pure True.intro
  · exact fun _ => .pure True.intro

theorem updatePointerVar_quiet (m : VarMaps) : Quiet (updatePointerVar m) fun _ => True := by
  unfold updatePointerVar
  split
  · exact .pure True.intro
  · exact .ite (fun _ => .pure True.intro) fun _ => .fail (by decide)

theorem pickType_quiet (ts : TypeSystem) (sat : Satisfiable) (type : TypeID) :
    Quiet (pickType ts sat type) fun _ => True := by
  unfold pickType
  apply Quiet.ite
  · intro _
    apply (randomPick_quiet _).bind
    intro entry _
    apply Quiet.ite
    · intro _
      apply (getRandInt_quiet 3).bind
      intro coin _
      apply Quiet.ite
      · exact fun _ => .pure True.intro
      · intro _
        split
        · exact .fail (by decide)
        · exact .pure True.intro
    · exact fun _ => .pure True.intro
  · exact fun _ => .pure True.intro

end Quiet

end Generator

end PolyGlot
