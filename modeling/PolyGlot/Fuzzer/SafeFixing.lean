import PolyGlot.Fuzzer.TypeTable
import PolyGlot.Validate.Totality

set_option autoImplicit false

/-! # Validations that cannot fail, in a campaign

A failed assertion of the validation ends the process. In every state that a
campaign of the semantic mode leads to it depends on the tree alone whether some
random values make one fail.
-/
namespace PolyGlot

open BinaryTree Prog

section
variable {cfg : Configuration} {parse : Str → Option ParseTree} {g : Garbage} {s s' : PolyGlotMutator}

theorem TypeSystem.initial_plain : TypeSystem.initial.Plain where
  statics := fun id v hv => by simp [TypeSystem.initial, TypeStatics.initial] at hv
  own := fun id => by simp [TypeSystem.initial]
  members := fun id c hc => by simp [TypeSystem.initial] at hc

theorem Validations.plain {k : ℕ} {ts ts' : TypeSystem} (h : Validations cfg k ts ts') (hts : ts.Plain) : ts'.Plain := by
  induction h with
  | start => exact hts
  | validate _ hrun ih =>
    unfold PolyGlot.validate at hrun
    obtain ⟨_,_,_,hrun⟩ := of_bind hrun
    obtain ⟨built,_,hbuild,hrun⟩ := of_bind hrun
    obtain ⟨fixed,_,_,hrun⟩ := of_bind hrun
    cases hrun
    exact (ih hts).collected (of_lift hbuild).1

/-- After any campaign of the semantic mode a validation returns on all random
values exactly when the symbols of the tree can be collected, and at no
placeholder the generator can fail. -/
theorem campaign_validate_returns_iff {calls : List Callback} {es : List (Handout.Event Str)} {left : ℕ}
    (hstart : s.types = .initial) (hc : Campaign cfg false parse g s calls es left s') (root : IR) :
    (∀ rand, ∃ r, validate cfg s'.types root rand = .ok r) ↔
      root ≠ .nil ∧ ∃ built, buildScopeTreeWithSymbolTable cfg s'.types (markFixMe root) = .ok built ∧
        ∀ p ∈ outermostPaths isFixme built.1, ∀ n, (built.1.subtreeAt p).root? = some n →
          Generator.CannotFail cfg.isWeakType built.2.scopes built.2.types n := by
  have hinitial : s.types.Plain := hstart ▸ TypeSystem.initial_plain
  exact always_validate_iff (hc.validations.plain hinitial) root

end

/-- A unit that sees no variable is always fixed. -/
def unitAlone : IR :=
  programOf (.node ⟨5,none,.monostate,.kFixUnit,.kScopeDefault,0,9⟩ (textLeaf .kDataDefault FIXMETAG) .nil)

theorem unitAlone_fixed : ∃ es s', Campaign (intConfig true) false parseParens zeroed fresh [.fuzzCount "(x)".toList] es 1 s' ∧
    ∀ rand, ∃ r, validate (intConfig true) s'.types unitAlone rand = .ok r := by
  have hentries : ((aflCustomFuzzCount (intConfig true) false parseParens zeroed "(x)".toList fresh).bind fun r =>
      (buildScopeTreeWithSymbolTable (intConfig true) r.2.types (markFixMe unitAlone)).map fun built =>
        built.2.scopes.entries) = .ok [] := by
    decide +kernel
  obtain ⟨s',hcount⟩ := parens_counted
  rw [hcount] at hentries
  have hc : Campaign (intConfig true) false parseParens zeroed fresh [.fuzzCount "(x)".toList] _ 1 s' :=
    .callback .start (.fuzzCount hcount)
  refine ⟨_,s',hc,(campaign_validate_returns_iff rfl hc unitAlone).mpr ⟨by simp [unitAlone, programOf],?_⟩⟩
  cases hbuild : buildScopeTreeWithSymbolTable (intConfig true) s'.types (markFixMe unitAlone) with
  | error f =>
    simp only [Except.bind, hbuild] at hentries
    cases hentries
  | ok built =>
    simp only [Except.bind, hbuild] at hentries
    have hempty : built.2.scopes.entries = [] := Except.ok.inj hentries
    have hnone : ∀ n t d, ¬ Visible built.2.scopes n t d := by
      intro n t d hvisible
      obtain ⟨e,he,-⟩ := hvisible.recorded
      rw [hempty] at he
      cases he
    refine ⟨built,rfl,fun p _ n _ => ⟨?_,?_,?_,?_⟩⟩
    · exact fun t d _ hd => absurd hd (hnone n t d)
    · exact fun c d _ hd => absurd hd (hnone n c d)
    · exact fun c d _ hd => absurd hd (hnone n c d)
    · exact fun c d hd => absurd hd (hnone n c d)

end PolyGlot
