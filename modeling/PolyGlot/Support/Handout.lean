import Mathlib.Tactic

set_option autoImplicit false

/-! # Handing out batches

A stack is filled with a batch when it is empty and then hands the batch out
from its end. A history lists what happened, the last event first.
-/
namespace Handout

variable {α : Type*}

inductive Event (α : Type*)
  | refill (batch : List α)
  | hand (a : α)
  | other

def lastBatch : List (Event α) → List α
  | [] => []
  | .refill batch :: _ => batch
  | _ :: es => lastBatch es

def handed : List (Event α) → List α
  | [] => []
  | .refill _ :: _ => []
  | .hand a :: es => handed es ++ [a]
  | .other :: es => handed es

/-- At every time what was handed out is the end of the last batch, each element once. -/
def InOrder (es : List (Event α)) : Prop := ∀ es', es' <:+ es → handed es' <+: (lastBatch es').reverse

inductive Step : List α → Event α → List α → Prop
  | refill {batch : List α} : Step [] (.refill batch) batch
  | hand {stack : List α} {a : α} : Step (stack ++ [a]) (.hand a) stack
  | other {stack : List α} : Step stack .other stack

inductive Run : List (Event α) → List α → Prop
  | start : Run [] []
  | step {es : List (Event α)} {e : Event α} {stack stack' : List α} (h : Run es stack) (hstep : Step stack e stack') :
      Run (e :: es) stack'

variable {es : List (Event α)} {stack stack' : List α}

/-- The batch is what was handed out and what is left. -/
theorem Run.batch_eq (h : Run es stack) : (lastBatch es).reverse = handed es ++ stack.reverse := by
  induction h with
  | start => rfl
  | step h hstep ih =>
    cases hstep with
    | refill => simp [lastBatch, handed]
    | hand => simpa [lastBatch, handed] using ih
    | other => exact ih

theorem Run.inOrder (h : Run es stack) : InOrder es := by
  have hnow : ∀ {es : List (Event α)} {stack : List α}, Run es stack → handed es <+: (lastBatch es).reverse := by
    intro es stack h
    rw [h.batch_eq]
    exact List.prefix_append ..
  induction h with
  | start =>
    intro es' hes
    rw [List.suffix_nil.mp hes]
    exact hnow .start
  | step h hstep ih =>
    intro es' hes
    rcases List.suffix_cons_iff.mp hes with rfl | hes
    · exact hnow (.step h hstep)
    · exact ih es' hes

end Handout
