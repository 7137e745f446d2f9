import PolyGlot.Support.Prog

set_option autoImplicit false

/-! # Programs that keep their state when they fail

Where a `Prog` that fails has no state left, an attempt has the one in which it
failed. `Sustains E I m Q` is about every attempt from a state with `I`, and
`Mirrors` compares an attempt with a program that sees a part of the state.
-/

abbrev Attempt (ε σ α : Type) := ExceptT ε (StateM σ) α

namespace Attempt

variable {ε σ τ α β : Type}

def run (m : Attempt ε σ α) (s : σ) : Except ε α × σ := m s

@[simp] theorem run_pure (a : α) (s : σ) : run (pure a : Attempt ε σ α) s = (.ok a, s) := rfl

@[simp] theorem run_throw (e : ε) (s : σ) : run (throw e : Attempt ε σ α) s = (.error e, s) := rfl

theorem run_bind (m : Attempt ε σ α) (f : α → Attempt ε σ β) (s : σ) :
    run (m >>= f) s = match run m s with | (.ok a, t) => run (f a) t | (.error e, t) => (.error e, t) := by
  change (ExceptT.bindCont f (m s).1) (m s).2 = _
  unfold run
  cases h : m s with
  | mk r t => cases r <;> rfl

@[simp] theorem run_get (s : σ) : run (get : Attempt ε σ σ) s = (.ok s, s) := rfl

@[simp] theorem run_modify (g : σ → σ) (s : σ) : run (modify g : Attempt ε σ PUnit) s = (.ok ⟨⟩, g s) := rfl

@[simp] theorem run_get_bind (f : σ → Attempt ε σ α) (s : σ) : run (get >>= f) s = run (f s) s := rfl

@[simp] theorem run_modify_bind (g : σ → σ) (m : Attempt ε σ α) (s : σ) :
    run (modify g >>= fun _ => m) s = run m (g s) := rfl

@[simp] theorem run_lift (x : Except ε α) (s : σ) : run (liftM x : Attempt ε σ α) s = (x, s) := rfl

theorem run_lift_bind (x : Except ε α) (f : α → Attempt ε σ β) (s : σ) :
    run (liftM x >>= f) s = match x with | .ok a => run (f a) s | .error e => (.error e, s) := by
  cases x <;> rfl

theorem run_tryCatch (m : Attempt ε σ α) (handle : ε → Attempt ε σ α) (s : σ) :
    run (tryCatch m handle) s = match run m s with | (.ok a, t) => (.ok a, t) | (.error e, t) => run (handle e) t := by
  change (ExceptT.tryCatch m handle) s = _
  unfold run
  unfold ExceptT.tryCatch
  change (match (m s).1 with | .ok a => pure (.ok a) | .error e => handle e : StateM σ (Except ε α)) (m s).2 = _
  cases h : m s with
  | mk r t => cases r <;> rfl

def result (view : σ → τ) : Except ε α × σ → Except ε (α × τ)
  | (.ok a, t) => .ok (a, view t)
  | (.error e, _) => .error e

/-- Try a program on a part of the state, which stays as it was where it fails. -/
def onPart (view : σ → τ) (put : τ → σ → σ) (p : Prog ε τ α) : Attempt ε σ α :=
  fun s => match p (view s) with
    | .error e => (.error e, s)
    | .ok (a, t) => (.ok a, put t s)

theorem run_onPart (view : σ → τ) (put : τ → σ → σ) (p : Prog ε τ α) (s : σ) :
    run (onPart view put p) s = match p (view s) with
      | .error e => (.error e, s)
      | .ok (a, t) => (.ok a, put t s) := rfl

structure Ended (E : ε → Prop) (I : σ → Prop) (Q : α → Prop) (r : Except ε α × σ) : Prop where
  state : I r.2
  returns : ∀ a, r.1 = .ok a → Q a
  fails : ∀ e, r.1 = .error e → E e

structure Sustains (E : ε → Prop) (I : σ → Prop) (m : Attempt ε σ α) (Q : α → Prop) : Prop where
  ended : ∀ s, I s → Ended E I Q (run m s)

section Sustains
variable {E : ε → Prop} {I J : σ → Prop} {m m' : Attempt ε σ α} {Q R : α → Prop}

theorem Ended.ok {a : α} {s : σ} (hs : I s) (h : Q a) : Ended E I Q (.ok a, s) := by
  refine ⟨hs,fun b hb => ?_,fun e he => ?_⟩
  · cases hb
    exact h
  · cases he

theorem Ended.error {e : ε} {s : σ} (hs : I s) (h : E e) : Ended E I Q (.error e, s) := by
  refine ⟨hs,fun b hb => ?_,fun e' he => ?_⟩
  · cases hb
  · cases he
    exact h

theorem Ended.mono {r : Except ε α × σ} (h : Ended E I Q r) (hIJ : ∀ s, I s → J s) (hQR : ∀ a, Q a → R a) :
    Ended E J R r :=
  ⟨hIJ _ h.state,fun a ha => hQR a (h.returns a ha),h.fails⟩

theorem Sustains.mono (h : Sustains E I m Q) (hQR : ∀ a, Q a → R a) : Sustains E I m R :=
  ⟨fun s hs => (h.ended s hs).mono (fun _ ht => ht) hQR⟩

theorem Sustains.pure {a : α} (h : Q a) : Sustains E I (Pure.pure a : Attempt ε σ α) Q := ⟨fun _ hs => .ok hs h⟩

theorem Sustains.throw {e : ε} (h : E e) : Sustains E I (throw e : Attempt ε σ α) Q := ⟨fun _ hs => .error hs h⟩

theorem Sustains.bind {f : α → Attempt ε σ β} {S : β → Prop} (h : Sustains E I m Q)
    (hf : ∀ a, Q a → Sustains E I (f a) S) : Sustains E I (m >>= f) S := by
  constructor
  intro s hs
  have hm := h.ended s hs
  rw [run_bind]
  cases hrun : run m s with
  | mk r t =>
    rw [hrun] at hm
    cases r with
    | ok a => exact (hf a (hm.returns a rfl)).ended t hm.state
    | error e => exact .error hm.state (hm.fails e rfl)

theorem Sustains.get_bind {f : σ → Attempt ε σ α} (hf : ∀ s, I s → Sustains E I (f s) Q) : Sustains E I (get >>= f) Q :=
  ⟨fun s hs => (hf s hs).ended s hs⟩

theorem Sustains.modify_bind {g : σ → σ} (hg : ∀ s, I s → I (g s)) (h : Sustains E I m Q) :
    Sustains E I (modify g >>= fun _ => m) Q :=
  ⟨fun s hs => h.ended (g s) (hg s hs)⟩

theorem Sustains.modify {g : σ → σ} {Q : PUnit → Prop} (hg : ∀ s, I s → I (g s)) (h : Q ⟨⟩) :
    Sustains E I (modify g : Attempt ε σ PUnit) Q :=
  ⟨fun s hs => .ok (hg s hs) h⟩

theorem Sustains.ite {c : Prop} [Decidable c] (hm : c → Sustains E I m Q) (hm' : ¬ c → Sustains E I m' Q) :
    Sustains E I (if c then m else m') Q := by
  split
  · exact hm ‹_›
  · exact hm' ‹_›

theorem Sustains.onPart {view : σ → τ} {put : τ → σ → σ} {p : Prog ε τ α} {K : τ → σ → Prop}
    (h : ∀ s, I s → Prog.EnsuresOr E (fun t => K t s) p Q) (hview : ∀ s, I s → K (view s) s)
    (hput : ∀ s t, I s → K t s → I (put t s)) : Sustains E I (onPart view put p) Q := by
  constructor
  intro s hs
  rw [run_onPart]
  cases hrun : p (view s) with
  | error e => exact .error hs ((h s hs).fails _ e (hview s hs) hrun)
  | ok r =>
    obtain ⟨hQ,ht⟩ := (h s hs).returns _ r.1 r.2 (hview s hs) hrun
    exact .ok (hput s r.2 hs ht) hQ

end Sustains

/-- The attempt does to the part `view` of the state what the program does, from
every state with `I`, and keeps `I`. -/
structure Mirrors (view : σ → τ) (I : σ → Prop) (m : Attempt ε σ α) (p : Prog ε τ α) : Prop where
  state : ∀ s, I s → I (run m s).2
  returns : ∀ s a t, I s → run m s = (.ok a, t) → p (view s) = .ok (a, view t)
  fails : ∀ s e t, I s → run m s = (.error e, t) → p (view s) = .error e

section Mirrors
variable {view : σ → τ} {I : σ → Prop} {m m' : Attempt ε σ α} {p p' : Prog ε τ α}

theorem Mirrors.pure (a : α) : Mirrors view I (Pure.pure a : Attempt ε σ α) (Pure.pure a) := by
  refine ⟨fun s hs => hs,fun s b t _ hrun => ?_,fun s e t _ hrun => ?_⟩
  · cases hrun
    rfl
  · cases hrun

theorem Mirrors.throw (e : ε) : Mirrors view I (throw e : Attempt ε σ α) (Prog.fail e) := by
  refine ⟨fun s hs => hs,fun s b t _ hrun => ?_,fun s e' t _ hrun => ?_⟩
  · cases hrun
  · cases hrun
    rfl

theorem Mirrors.bind {f : α → Attempt ε σ β} {g : α → Prog ε τ β} (h : Mirrors view I m p)
    (hf : ∀ a, Mirrors view I (f a) (g a)) : Mirrors view I (m >>= f) (p >>= g) := by
  have hcases : ∀ s, I s → (∃ a t, I t ∧ run (m >>= f) s = run (f a) t ∧ (p >>= g) (view s) = g a (view t)) ∨
      ∃ e t, I t ∧ run (m >>= f) s = (.error e, t) ∧ (p >>= g) (view s) = .error e := by
    intro s hs
    have hstate := h.state s hs
    rw [run_bind, Prog.run_bind]
    cases hrun : run m s with
    | mk r t =>
      rw [hrun] at hstate
      cases r with
      | ok a => exact .inl ⟨a,t,hstate,rfl,by rw [h.returns s a t hs hrun]⟩
      | error e => exact .inr ⟨e,t,hstate,rfl,by rw [h.fails s e t hs hrun]⟩
  refine ⟨fun s hs => ?_,fun s b u hs hrun => ?_,fun s e u hs hrun => ?_⟩
  · rcases hcases s hs with ⟨a,t,ht,heq,_⟩ | ⟨e,t,ht,heq,_⟩
    · rw [heq]
      exact (hf a).state t ht
    · rw [heq]
      exact ht
  · rcases hcases s hs with ⟨a,t,ht,heq,hprog⟩ | ⟨e,t,_,heq,_⟩
    · rw [hprog]
      exact (hf a).returns t b u ht (heq ▸ hrun)
    · rw [heq] at hrun
      cases hrun
  · rcases hcases s hs with ⟨a,t,ht,heq,hprog⟩ | ⟨e',t,_,heq,hprog⟩
    · rw [hprog]
      exact (hf a).fails t e u ht (heq ▸ hrun)
    · rw [heq] at hrun
      cases hrun
      exact hprog

theorem Mirrors.modify_bind {g : σ → σ} {g' : τ → τ} (hg : ∀ s, I s → I (g s) ∧ view (g s) = g' (view s))
    (h : Mirrors view I m p) : Mirrors view I (modify g >>= fun _ => m) (modify g' >>= fun _ => p) := by
  refine ⟨fun s hs => h.state (g s) (hg s hs).1,fun s a t hs hrun => ?_,fun s e t hs hrun => ?_⟩
  · rw [Prog.run_modify_bind, ← (hg s hs).2]
    exact h.returns (g s) a t (hg s hs).1 hrun
  · rw [Prog.run_modify_bind, ← (hg s hs).2]
    exact h.fails (g s) e t (hg s hs).1 hrun

theorem Mirrors.get_bind {f : σ → Attempt ε σ α} {g : τ → Prog ε τ α} (h : ∀ s, I s → Mirrors view I (f s) (g (view s))) :
    Mirrors view I (get >>= f) (get >>= g) :=
  ⟨fun s hs => (h s hs).state s hs,fun s a t hs hrun => (h s hs).returns s a t hs hrun,
    fun s e t hs hrun => (h s hs).fails s e t hs hrun⟩

/-- The attempt looks at its state where the program does not. -/
theorem Mirrors.get_left {f : σ → Attempt ε σ α} (h : ∀ s, I s → Mirrors view I (f s) p) :
    Mirrors view I (get >>= f) p :=
  ⟨fun s hs => (h s hs).state s hs,fun s a t hs hrun => (h s hs).returns s a t hs hrun,
    fun s e t hs hrun => (h s hs).fails s e t hs hrun⟩

theorem Mirrors.congr (h : Mirrors view I m' p) (hsame : ∀ s, I s → run m s = run m' s) : Mirrors view I m p :=
  ⟨fun s hs => hsame s hs ▸ h.state s hs,fun s a t hs hrun => h.returns s a t hs (hsame s hs ▸ hrun),
    fun s e t hs hrun => h.fails s e t hs (hsame s hs ▸ hrun)⟩

theorem Mirrors.result_eq (h : Mirrors view I m p) {s : σ} (hs : I s) : p (view s) = result view (run m s) := by
  cases hrun : run m s with
  | mk r t =>
    cases r with
    | ok a => exact h.returns s a t hs hrun
    | error e => exact h.fails s e t hs hrun

theorem Mirrors.ite {c : Prop} [Decidable c] (hm : c → Mirrors view I m p) (hm' : ¬ c → Mirrors view I m' p') :
    Mirrors view I (if c then m else m') (if c then p else p') := by
  split
  · exact hm ‹_›
  · exact hm' ‹_›

theorem Mirrors.onPart {put : τ → σ → σ} (p : Prog ε τ α) (hview : ∀ s t, view (put t s) = t)
    (hput : ∀ s a t, I s → p (view s) = .ok (a, t) → I (put t s)) : Mirrors view I (onPart view put p) p := by
  have hcases : ∀ s, (∃ a t, p (view s) = .ok (a, t) ∧ run (Attempt.onPart view put p) s = (.ok a, put t s)) ∨
      ∃ e, p (view s) = .error e ∧ run (Attempt.onPart view put p) s = (.error e, s) := by
    intro s
    rw [run_onPart]
    cases p (view s) with
    | ok r => exact .inl ⟨r.1,r.2,rfl,rfl⟩
    | error e => exact .inr ⟨e,rfl,rfl⟩
  refine ⟨fun s hs => ?_,fun s a t hs hrun => ?_,fun s e t hs hrun => ?_⟩
  · rcases hcases s with ⟨a,t,hp,heq⟩ | ⟨e,_,heq⟩
    · rw [heq]
      exact hput s a t hs hp
    · rw [heq]
      exact hs
  · rcases hcases s with ⟨b,u,hp,heq⟩ | ⟨e,_,heq⟩
    · rw [heq] at hrun
      cases hrun
      rw [hp, hview]
    · rw [heq] at hrun
      cases hrun
  · rcases hcases s with ⟨b,u,_,heq⟩ | ⟨e',hp,heq⟩
    · rw [heq] at hrun
      cases hrun
    · rw [heq] at hrun
      cases hrun
      exact hp

end Mirrors

end Attempt
