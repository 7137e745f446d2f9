import Mathlib.Data.List.Basic
import Mathlib.Tactic

set_option autoImplicit false

/-! # What the alternatives of a grammar spell

A rule has finitely many alternatives, sequences of terminals and rules. A
terminal spells some tokens, perhaps none, and a rule what one of its
alternatives spells.
-/
namespace Cfg

inductive GrammarSymbol (τ ρ : Type*)
  | terminal (t : τ)
  | rule (r : ρ)
  deriving DecidableEq

abbrev Grammar (τ ρ : Type*) := ρ → List (List (GrammarSymbol τ ρ))

variable {τ ρ ω : Type*} {G : Grammar τ ρ} {text : τ → List ω}

inductive Spells (G : Grammar τ ρ) (text : τ → List ω) : List (GrammarSymbol τ ρ) → List ω → Prop
  | nil : Spells G text [] []
  | terminal (t : τ) {syms : List (GrammarSymbol τ ρ)} {w : List ω} (h : Spells G text syms w) :
      Spells G text (.terminal t :: syms) (text t ++ w)
  | rule {r : ρ} {alt syms : List (GrammarSymbol τ ρ)} {v w : List ω} (halt : alt ∈ G r) (hv : Spells G text alt v)
      (h : Spells G text syms w) : Spells G text (.rule r :: syms) (v ++ w)

theorem Spells.append {a b : List (GrammarSymbol τ ρ)} {v w : List ω} (h : Spells G text a v)
    (h' : Spells G text b w) : Spells G text (a ++ b) (v ++ w) := by
  induction h with
  | nil => exact h'
  | terminal t h ih =>
    rw [List.append_assoc]
    exact .terminal t ih
  | rule halt hv h _ ih =>
    rw [List.append_assoc]
    exact .rule halt hv ih

theorem spells_terminal (t : τ) : Spells G text [.terminal t] (text t) := by
  have h : Spells G text [.terminal t] (text t ++ []) := .terminal t .nil
  rwa [List.append_nil] at h

theorem spells_rule {r : ρ} {w : List ω} : Spells G text [.rule r] w ↔ ∃ alt ∈ G r, Spells G text alt w := by
  constructor
  · intro h
    cases h with
    | rule halt hv hnil =>
      cases hnil
      rw [List.append_nil]
      exact ⟨_,halt,hv⟩
  · rintro ⟨alt,halt,hv⟩
    have h := Spells.rule halt hv .nil
    rwa [List.append_nil] at h

/-- `a` without some symbols that can spell nothing is `b`. -/
inductive Reduces (G : Grammar τ ρ) (text : τ → List ω) : List (GrammarSymbol τ ρ) → List (GrammarSymbol τ ρ) → Prop
  | nil : Reduces G text [] []
  | keep (x : GrammarSymbol τ ρ) {a b : List (GrammarSymbol τ ρ)} (h : Reduces G text a b) : Reduces G text (x :: a) (x :: b)
  | drop {x : GrammarSymbol τ ρ} {a b : List (GrammarSymbol τ ρ)} (hx : Spells G text [x] []) (h : Reduces G text a b) :
      Reduces G text (x :: a) b

/-- An alternative spells what is left of it. -/
theorem Reduces.spells {a b : List (GrammarSymbol τ ρ)} {w : List ω} (h : Reduces G text a b) (hb : Spells G text b w) :
    Spells G text a w := by
  induction h generalizing w with
  | nil => exact hb
  | keep x h ih =>
    cases hb with
    | terminal t hb => exact .terminal t (ih hb)
    | rule halt hv hb => exact .rule halt hv (ih hb)
  | drop hx h ih => exact hx.append (ih hb)

end Cfg
