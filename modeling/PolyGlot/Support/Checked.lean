import PolyGlot.Support.Prog

set_option autoImplicit false

/-! # Programs with checks

Two programs that are the same but for checks in the first, which fail with `e`.
`Checked e V I m' m Q J` says that from every state with `I` they do the same, and
then end with `Q` and in a state with `J`, unless a check fails, which only happens
where `V` says that it may.
-/

namespace Prog

variable {ε σ α β : Type}

structure Checked (e : ε) (V : Prop) (I : σ → Prop) (m' m : Prog ε σ α) (Q : α → Prop) (J : σ → Prop) : Prop where
  outcome : ∀ s, I s → V ∧ m' s = .error e ∨
    m' s = m s ∧ m s ≠ .error e ∧ ∀ a t, m s = .ok (a, t) → Q a ∧ J t

section Checked
variable {e : ε} {V : Prop} {I J K : σ → Prop} {m m' n n' : Prog ε σ α} {Q : α → Prop}

theorem Checked.weaken (h : Checked e V J m' m Q K) (hIJ : ∀ s, I s → J s) : Checked e V I m' m Q K :=
  ⟨fun s hs => h.outcome s (hIJ s hs)⟩

/-- A part that makes no check. -/
theorem EnsuresOr.checked (h : EnsuresOr (· ≠ e) I m Q) : Checked e V I m m Q I := by
  constructor
  intro s hs
  exact .inr ⟨rfl,fun herror => h.fails s e hs herror rfl,fun a t hrun => h.returns s a t hs hrun⟩

theorem Checked.pure {a : α} (h : Q a) : Checked e V I (Pure.pure a : Prog ε σ α) (Pure.pure a) Q I :=
  (EnsuresOr.pure h).checked

theorem Checked.fail {e' : ε} (h : e' ≠ e) : Checked e V I (fail e' : Prog ε σ α) (fail e') Q J := by
  constructor
  intro s _
  refine .inr ⟨rfl,fun herror => h (Except.error.inj herror),fun a t hrun => ?_⟩
  cases hrun

theorem Checked.bind {f f' : α → Prog ε σ β} {S : β → Prop} (h : Checked e V I m' m Q J)
    (hf : ∀ a, Q a → Checked e V J (f' a) (f a) S K) : Checked e V I (m' >>= f') (m >>= f) S K := by
  constructor
  intro s hs
  rw [run_bind, run_bind]
  rcases h.outcome s hs with ⟨hV,herror⟩ | ⟨hsame,hnot,hends⟩
  · exact .inl ⟨hV,by rw [herror]⟩
  · rw [hsame]
    cases hrun : m s with
    | error e' =>
      rw [hrun] at hnot
      refine .inr ⟨rfl,fun herror => hnot (by rw [Except.error.inj herror]),fun b u hok => ?_⟩
      cases hok
    | ok r =>
      obtain ⟨hQ,ht⟩ := hends r.1 r.2 hrun
      exact (hf r.1 hQ).outcome r.2 ht

/-- What follows is about the state that was read. -/
theorem Checked.get_bind {f f' : σ → Prog ε σ α} (h : ∀ s, I s → Checked e V (· = s) (f' s) (f s) Q J) :
    Checked e V I (get >>= f') (get >>= f) Q J := by
  constructor
  intro s hs
  exact (h s hs).outcome s rfl

theorem Checked.modify_bind {g : σ → σ} (hg : ∀ s, I s → J (g s)) (h : Checked e V J m' m Q K) :
    Checked e V I (modify g >>= fun _ => m') (modify g >>= fun _ => m) Q K := by
  constructor
  intro s hs
  exact h.outcome (g s) (hg s hs)

theorem Checked.ite {c : Prop} [Decidable c] (hm : c → Checked e V I m' m Q J) (hn : ¬ c → Checked e V I n' n Q J) :
    Checked e V I (if c then m' else n') (if c then m else n) Q J := by
  split
  · exact hm ‹_›
  · exact hn ‹_›

/-- A check, that the second program does not make. -/
theorem Checked.check {c : σ → Prop} [DecidablePred c] (hc : ∀ s, I s → V ∨ c s) (h : Checked e V I m' m Q J) :
    Checked e V I (get >>= fun s => assertThat (c s) e >>= fun _ => m') m Q J := by
  constructor
  intro s hs
  rw [run_get_bind]
  by_cases hholds : c s
  · rw [assertThat, if_pos hholds]
    exact h.outcome s hs
  · rw [assertThat, if_neg hholds]
    exact .inl ⟨(hc s hs).resolve_right hholds,rfl⟩

/-- Where no check may fail, the checks change nothing. -/
theorem Checked.eq_of_not (h : Checked e V I m' m Q J) (hV : ¬ V) {s : σ} (hs : I s) : m' s = m s ∧ m' s ≠ .error e := by
  rcases h.outcome s hs with ⟨hV',_⟩ | ⟨hsame,hnot,_⟩
  · exact absurd hV' hV
  · exact ⟨hsame,hsame ▸ hnot⟩

theorem Checked.error_or_eq (h : Checked e V I m' m Q J) {s : σ} (hs : I s) : m' s = .error e ∨ m' s = m s :=
  (h.outcome s hs).imp And.right And.left

end Checked

end Prog
