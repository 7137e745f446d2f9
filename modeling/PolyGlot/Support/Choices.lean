import PolyGlot.Support.Prog
import Mathlib.Data.Stream.Init

set_option autoImplicit false

/-! # Programs that read their choices from a stream

A part of the state is a stream of choices to come. A program that only takes
choices off the stream runs the same whatever comes after those it takes. So over
all streams it is a nondeterministic program: what `m >>= f` can do is what `m`
can do, and then what `f` can do on any stream.
-/
namespace Prog

variable {ε σ α β : Type}

structure StreamPart (σ : Type) where
  stream : σ → Stream' ℕ
  put : Stream' ℕ → σ → σ
  put_stream : ∀ s, put (stream s) s = s
  put_put : ∀ r r' s, put r (put r' s) = put r s

def StreamPart.all : StreamPart (Stream' ℕ) := ⟨id,fun r _ => r,fun _ => rfl,fun _ _ _ => rfl⟩

/-- A run takes some choices off the stream, and no others matter. -/
def Reads (P : StreamPart σ) (m : Prog ε σ α) : Prop := ∀ s a t, m s = .ok (a,t) →
  ∃ xs, P.stream s = xs ++ₛ P.stream t ∧ ∀ r, m (P.put (xs ++ₛ r) s) = .ok (a,P.put r t)

section Reads
variable {P : StreamPart σ} {m m' : Prog ε σ α} {f : α → Prog ε σ β}

theorem Reads.pure (a : α) : Reads P (Pure.pure a : Prog ε σ α) := by
  intro s b t hrun
  cases hrun
  exact ⟨[],rfl,fun r => rfl⟩

theorem Reads.fail (e : ε) : Reads P (fail e : Prog ε σ α) := by
  intro s a t hrun
  cases hrun

theorem Reads.bind (hm : Reads P m) (hf : ∀ a, Reads P (f a)) : Reads P (m >>= f) := by
  intro s b u hrun
  obtain ⟨a,t,hmrun,hfrun⟩ := of_bind hrun
  obtain ⟨xs,hxs,hmany⟩ := hm s a t hmrun
  obtain ⟨ys,hys,hfany⟩ := hf a t b u hfrun
  refine ⟨xs ++ ys,?_,fun r => ?_⟩
  · rw [hxs, hys, Stream'.append_append_stream]
  · rw [run_bind, Stream'.append_append_stream, hmany]
    exact hfany r

/-- The program looks at a part of the state that the stream is not in. -/
theorem Reads.get_bind {k : σ → Prog ε σ α} (hk : ∀ s, Reads P (k s)) (hput : ∀ r s, k (P.put r s) = k s) :
    Reads P (get >>= k) := by
  intro s a t hrun
  obtain ⟨xs,hxs,hany⟩ := hk s s a t hrun
  refine ⟨xs,hxs,fun r => ?_⟩
  have heq := hany r
  rw [← hput (xs ++ₛ r) s] at heq
  exact heq

/-- The program changes a part of the state that the stream is not in. -/
theorem Reads.modify {g : σ → σ} (hstream : ∀ s, P.stream (g s) = P.stream s) (hput : ∀ r s, g (P.put r s) = P.put r (g s)) :
    Reads P (modify g : Prog ε σ PUnit) := by
  intro s a t hrun
  cases hrun
  refine ⟨[],(hstream s).symm,fun r => ?_⟩
  rw [← hput]
  rfl

theorem Reads.ite {c : Prop} [Decidable c] (h : c → Reads P m) (h' : ¬ c → Reads P m') : Reads P (if c then m else m') := by
  split
  · exact h ‹_›
  · exact h' ‹_›

theorem Reads.assertThat {c : Prop} [Decidable c] {e : ε} : Reads P (assertThat c e) :=
  Reads.ite (fun _ => Reads.pure ()) fun _ => Reads.fail e

theorem Reads.onlyIf {c : Prop} [Decidable c] {m : Prog ε σ Unit} (h : Reads P m) : Reads P (onlyIf c m) :=
  Reads.ite (fun _ => h) fun _ => Reads.pure ()

end Reads

def Always (m : Prog ε (Stream' ℕ) α) : Prop := ∀ r, ∃ x, m r = .ok x

def May (m : Prog ε (Stream' ℕ) α) (a : α) : Prop := ∃ r r', m r = .ok (a,r')

section Always
variable {m : Prog ε (Stream' ℕ) α} {f : α → Prog ε (Stream' ℕ) β}

theorem always_bind_iff (h : Reads .all m) : Always (m >>= f) ↔ Always m ∧ ∀ a, May m a → Always (f a) := by
  constructor
  · intro hall
    constructor
    · intro r
      obtain ⟨⟨b,r'⟩,hrun⟩ := hall r
      obtain ⟨a,t,hm,-⟩ := of_bind hrun
      exact ⟨_,hm⟩
    · rintro a ⟨r,r',hm⟩ rest
      obtain ⟨xs,-,hany⟩ := h r a r' hm
      have hrest : m (xs ++ₛ rest) = .ok (a,rest) := hany rest
      obtain ⟨x,hrun⟩ := hall (xs ++ₛ rest)
      rw [run_bind, hrest] at hrun
      exact ⟨x,hrun⟩
  · rintro ⟨hm,hf⟩ r
    obtain ⟨⟨a,r'⟩,hrun⟩ := hm r
    obtain ⟨x,hx⟩ := hf a ⟨r,r',hrun⟩ r'
    exact ⟨x,by rw [run_bind, hrun]; exact hx⟩

/-- What is made of the value at the end cannot fail. -/
theorem always_map_iff (k : α → β) : Always (do return k (← m)) ↔ Always m := by
  constructor
  · intro hall r
    obtain ⟨⟨b,r'⟩,hrun⟩ := hall r
    obtain ⟨a,t,hm,-⟩ := of_bind hrun
    exact ⟨_,hm⟩
  · intro hall r
    obtain ⟨⟨a,r'⟩,hrun⟩ := hall r
    exact ⟨(k a,r'),by rw [run_bind, hrun]; rfl⟩

/-- A check that looks at nothing random comes first. -/
theorem always_assertThat_bind_iff {c : Prop} [Decidable c] {e : ε} {p : Prog ε (Stream' ℕ) α} :
    Always (assertThat c e >>= fun _ => p) ↔ c ∧ Always p := by
  unfold assertThat
  by_cases hc : c
  · rw [if_pos hc]
    exact (and_iff_right hc).symm
  · rw [if_neg hc]
    constructor
    · intro hall
      obtain ⟨x,hrun⟩ := hall (Stream'.const 0)
      cases hrun
    · exact fun h => absurd h.1 hc

/-- A computation that looks at nothing random comes first. -/
theorem always_lift_bind_iff {x : Except ε α} : Always ((liftM x : Prog ε (Stream' ℕ) α) >>= f) ↔ ∃ a, x = .ok a ∧ Always (f a) := by
  cases x with
  | error e =>
    constructor
    · intro hall
      obtain ⟨x,hrun⟩ := hall (Stream'.const 0)
      cases hrun
    · rintro ⟨a,h,-⟩
      cases h
  | ok a =>
    constructor
    · exact fun hall => ⟨a,rfl,hall⟩
    · rintro ⟨b,h,hall⟩
      cases h
      exact hall

theorem Always.pure (a : α) : Always (Pure.pure a : Prog ε (Stream' ℕ) α) := fun r => ⟨(a,r),rfl⟩

end Always

end Prog
