import PolyGlot.Support.Prog

set_option autoImplicit false

/-! # Two programs side by side

`Simulates m s p t Q` compares a program with another one that runs on a simpler
state: both fail with the same fault, or both return and `Q` relates what they
return. A program whose runs are known may take a step alone.
-/
namespace Prog

variable {ε σ τ α β γ δ : Type}

structure Simulates (m : Prog ε σ α) (s : σ) (p : Prog ε τ β) (t : τ) (Q : α → σ → β → τ → Prop) : Prop where
  returns : ∀ a s', m s = .ok (a,s') → ∃ b t', p t = .ok (b,t') ∧ Q a s' b t'
  fails : ∀ e, m s = .error e → p t = .error e

section Simulates
variable {m : Prog ε σ α} {p : Prog ε τ β} {s : σ} {t : τ} {Q R : α → σ → β → τ → Prop}

theorem Simulates.mono (h : Simulates m s p t Q) (hQR : ∀ a s' b t', Q a s' b t' → R a s' b t') : Simulates m s p t R := by
  refine ⟨fun a s' hrun => ?_,h.fails⟩
  obtain ⟨b,t',hrun',hQ⟩ := h.returns a s' hrun
  exact ⟨b,t',hrun',hQR _ _ _ _ hQ⟩

theorem Simulates.pure {a : α} {b : β} (h : Q a s b t) :
    Simulates (Pure.pure a : Prog ε σ α) s (Pure.pure b : Prog ε τ β) t Q := by
  refine ⟨fun a' s' hrun => ?_,fun e hrun => ?_⟩
  · cases hrun
    exact ⟨b,t,rfl,h⟩
  · cases hrun

theorem Simulates.fail {e : ε} : Simulates (fail e : Prog ε σ α) s (fail e : Prog ε τ β) t Q := by
  refine ⟨fun a' s' hrun => ?_,fun e' hrun => ?_⟩
  · cases hrun
  · cases hrun
    rfl

theorem Simulates.bind {f : α → Prog ε σ γ} {g : β → Prog ε τ δ} {S : γ → σ → δ → τ → Prop}
    (h : Simulates m s p t Q) (hf : ∀ a s' b t', Q a s' b t' → Simulates (f a) s' (g b) t' S) :
    Simulates (m >>= f) s (p >>= g) t S := by
  cases hm : m s with
  | error e =>
    have hp := h.fails e hm
    refine ⟨fun c s' hrun => ?_,fun e' hrun => ?_⟩
    · rw [run_bind, hm] at hrun
      cases hrun
    · rw [run_bind, hm] at hrun
      cases hrun
      rw [run_bind, hp]
  | ok r =>
    obtain ⟨b,t',hp,hQ⟩ := h.returns r.1 r.2 hm
    have hrest := hf r.1 r.2 b t' hQ
    refine ⟨fun c s' hrun => ?_,fun e' hrun => ?_⟩
    · rw [run_bind, hm] at hrun
      obtain ⟨d,u,hrun',hS⟩ := hrest.returns c s' hrun
      exact ⟨d,u,by rw [run_bind, hp]; exact hrun',hS⟩
    · rw [run_bind, hm] at hrun
      rw [run_bind, hp]
      exact hrest.fails e' hrun

theorem Simulates.get_bind {f : σ → Prog ε σ α} {g : τ → Prog ε τ β} (h : Simulates (f s) s (g t) t Q) :
    Simulates (get >>= f) s (get >>= g) t Q := ⟨h.returns,h.fails⟩

/-- The first program takes a step of which is known what it does. -/
theorem Simulates.after {f : α → Prog ε σ γ} {P : α → σ → Prop} {S : γ → σ → β → τ → Prop} (h : Meets m s P)
    (hf : ∀ a s', P a s' → Simulates (f a) s' p t S) : Simulates (m >>= f) s p t S := by
  obtain ⟨a,s',hm,hP⟩ := h
  have hrest := hf a s' hP
  refine ⟨fun c u hrun => hrest.returns c u ?_,fun e hrun => hrest.fails e ?_⟩
  · rwa [run_bind, hm] at hrun
  · rwa [run_bind, hm] at hrun

theorem Simulates.of_meets {b : β} {v : τ} (hp : p t = .ok (b,v)) (h : Meets m s fun a s' => Q a s' b v) :
    Simulates m s p t Q := by
  obtain ⟨a,s',hm,hQ⟩ := h
  refine ⟨fun a' u hrun => ?_,fun e hrun => ?_⟩
  · rw [hm] at hrun
    cases hrun
    exact ⟨b,v,hp,hQ⟩
  · rw [hm] at hrun
    cases hrun

theorem Simulates.ite {m' : Prog ε σ α} {p' : Prog ε τ β} {c d : Prop} [Decidable c] [Decidable d] (hcd : c ↔ d)
    (h : c → Simulates m s p t Q) (h' : ¬ c → Simulates m' s p' t Q) :
    Simulates (if c then m else m') s (if d then p else p') t Q := by
  by_cases hc : c
  · rw [if_pos hc, if_pos (hcd.mp hc)]
    exact h hc
  · rw [if_neg hc, if_neg (mt hcd.mpr hc)]
    exact h' hc

theorem Simulates.assertThat {c d : Prop} [Decidable c] [Decidable d] {e : ε} (hcd : c ↔ d) :
    Simulates (assertThat c e : Prog ε σ Unit) s (assertThat d e : Prog ε τ Unit) t
      fun _ s' _ t' => c ∧ s' = s ∧ t' = t :=
  Simulates.ite hcd (fun hc => Simulates.pure ⟨hc,rfl,rfl⟩) fun _ => Simulates.fail

theorem Simulates.onlyIf {m : Prog ε σ Unit} {p : Prog ε τ Unit} {Q : Unit → σ → Unit → τ → Prop} {c d : Prop}
    [Decidable c] [Decidable d] (hcd : c ↔ d) (h : c → Simulates m s p t Q) (hnot : ¬ c → Q () s () t) :
    Simulates (onlyIf c m) s (onlyIf d p) t Q :=
  Simulates.ite hcd h fun hc => Simulates.pure (hnot hc)

/-- What the first program returns is only looked at. -/
theorem Simulates.map_left (k : α → γ) (h : Simulates m s p t Q) :
    Simulates (do return k (← m)) s p t fun c s' b t' => ∃ a, c = k a ∧ Q a s' b t' := by
  refine ⟨fun c s' hrun => ?_,fun e hrun => ?_⟩
  · obtain ⟨a,u,hm,hk⟩ := of_bind hrun
    cases hk
    obtain ⟨b,t',hp,hQ⟩ := h.returns a s' hm
    exact ⟨b,t',hp,a,rfl,hQ⟩
  · rw [run_bind] at hrun
    cases hm : m s with
    | error e' =>
      rw [hm] at hrun
      cases hrun
      exact h.fails _ hm
    | ok r =>
      rw [hm] at hrun
      cases hrun

theorem Simulates.congr {m' : Prog ε σ α} {p' : Prog ε τ β} {s₁ : σ} {t₁ : τ} (h : Simulates m' s₁ p' t₁ Q)
    (hm : m s = m' s₁) (hp : p t = p' t₁) : Simulates m s p t Q := by
  refine ⟨fun a s' hrun => ?_,fun e hrun => ?_⟩
  · rw [hp]
    exact h.returns a s' (hm.symm.trans hrun)
  · rw [hp]
    exact h.fails e (hm.symm.trans hrun)

/-- The first program runs on a part of its state. -/
theorem Simulates.onPart {ρ : Type} {part : ρ → σ} {put : σ → ρ → ρ} {r : ρ} (h : Simulates m (part r) p t Q) :
    Simulates (onPart part put id m) r p t fun a r' b t' => ∃ s', r' = put s' r ∧ Q a s' b t' := by
  refine ⟨fun a r' hrun => ?_,fun e hrun => ?_⟩
  · obtain ⟨s',hm,rfl⟩ := of_onPart hrun
    obtain ⟨b,t',hp,hQ⟩ := h.returns a s' hm
    exact ⟨b,t',hp,s',rfl,hQ⟩
  · unfold Prog.onPart at hrun
    cases hm : m (part r) with
    | error e' =>
      rw [hm] at hrun
      obtain rfl : e' = e := Except.error.inj hrun
      exact h.fails e' hm
    | ok a =>
      rw [hm] at hrun
      cases hrun

/-- Two loops over one list, where a turn keeps a relation between the states. -/
theorem Simulates.forM {f : β → Prog ε σ Unit} {g : β → Prog ε τ Unit} {R : σ → τ → Prop} (l : List β) (hR : R s t)
    (h : ∀ b s t, R s t → Simulates (f b) s (g b) t fun _ s' _ t' => R s' t') :
    Simulates (l.forM f) s (l.forM g) t fun _ s' _ t' => R s' t' := by
  induction l generalizing s t with
  | nil => exact Simulates.pure hR
  | cons b l ih =>
    rw [List.forM_eq_forM, List.forM_eq_forM, List.forM_cons, List.forM_cons]
    exact (h b s t hR).bind fun _ s' _ t' hR' => ih hR'

/-- What the simpler program returns, the other one returns. -/
theorem Simulates.of_run {b : β} {t' : τ} (h : Simulates m s p t Q) (hrun : p t = .ok (b,t')) :
    ∃ a s', m s = .ok (a,s') ∧ Q a s' b t' := by
  cases hm : m s with
  | error e =>
    rw [h.fails e hm] at hrun
    cases hrun
  | ok r =>
    obtain ⟨c,u,hp,hQ⟩ := h.returns r.1 r.2 hm
    rw [hp] at hrun
    cases hrun
    exact ⟨r.1,r.2,rfl,hQ⟩

end Simulates

end Prog
