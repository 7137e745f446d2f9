import Mathlib.Tactic

set_option autoImplicit false

/-! # Programs that change a state and may fail

A program runs from a state and either fails or returns a value and a new
state. `Meets m s Q` says that `m` started in `s` returns, and that what it
returns satisfies `Q`.
-/

abbrev Prog (ε σ α : Type) := StateT σ (Except ε) α

namespace Prog

variable {ε σ τ α β : Type}

def Meets (m : Prog ε σ α) (s : σ) (Q : α → σ → Prop) : Prop :=
  ∃ a t, m s = .ok (a, t) ∧ Q a t

theorem Meets.pure {a : α} {s : σ} {Q : α → σ → Prop} (h : Q a s) : Meets (pure a : Prog ε σ α) s Q :=
  ⟨a,s,rfl,h⟩

theorem Meets.mono {m : Prog ε σ α} {s : σ} {Q R : α → σ → Prop} (h : Meets m s Q)
    (hQR : ∀ a t, Q a t → R a t) : Meets m s R := by
  obtain ⟨a,t,hrun,hQ⟩ := h
  exact ⟨a,t,hrun,hQR a t hQ⟩

theorem run_bind (m : Prog ε σ α) (f : α → Prog ε σ β) (s : σ) :
    (m >>= f) s = match m s with | .error e => .error e | .ok (a, t) => f a t := by
  change (m s >>= fun p => f p.1 p.2) = _
  cases m s <;> rfl

/-- Where the values agree that the first program can return, so do the runs. -/
theorem bind_congr_run {m : Prog ε σ α} {f g : α → Prog ε σ β} {s : σ}
    (h : ∀ a t, m s = .ok (a, t) → f a t = g a t) : (m >>= f) s = (m >>= g) s := by
  rw [run_bind, run_bind]
  cases hm : m s with
  | error e => rfl
  | ok r => exact h r.1 r.2 hm

theorem run_get_bind (f : σ → Prog ε σ α) (s : σ) : (get >>= f) s = f s s := rfl

theorem run_modify_bind (g : σ → σ) (m : Prog ε σ α) (s : σ) : (modify g >>= fun _ => m) s = m (g s) := rfl

theorem Meets.bind {m : Prog ε σ α} {f : α → Prog ε σ β} {s : σ} {Q : α → σ → Prop} {R : β → σ → Prop}
    (h : Meets m s Q) (hf : ∀ a t, Q a t → Meets (f a) t R) : Meets (m >>= f) s R := by
  obtain ⟨a,t,hrun,hQ⟩ := h
  obtain ⟨b,u,hrun',hR⟩ := hf a t hQ
  refine ⟨b,u,?_,hR⟩
  rw [run_bind, hrun]
  exact hrun'

theorem Meets.get {s : σ} {Q : σ → σ → Prop} (h : Q s s) : Meets (get : Prog ε σ σ) s Q := ⟨s,s,rfl,h⟩

theorem Meets.modify {f : σ → σ} {s : σ} {Q : PUnit → σ → Prop} (h : Q ⟨⟩ (f s)) :
    Meets (modify f : Prog ε σ PUnit) s Q := ⟨⟨⟩,f s,rfl,h⟩

/-- What a run that returned has in common with every run that meets `Q`. -/
theorem Meets.of_run {m : Prog ε σ α} {s t : σ} {a : α} {Q : α → σ → Prop} (h : Meets m s Q)
    (hrun : m s = .ok (a, t)) : Q a t := by
  obtain ⟨b,u,hrun',hQ⟩ := h
  rw [hrun] at hrun'
  cases hrun'
  exact hQ

theorem bind_ok {x : Except ε α} {f : α → Except ε β} {b : β} (h : (x >>= f) = .ok b) :
    ∃ a, x = .ok a ∧ f a = .ok b := by
  cases x with
  | error e => cases h
  | ok a => exact ⟨a,rfl,h⟩

/-- What a run of two programs in a row did. -/
theorem of_bind {m : Prog ε σ α} {f : α → Prog ε σ β} {s u : σ} {b : β} (h : (m >>= f) s = .ok (b, u)) :
    ∃ a t, m s = .ok (a, t) ∧ f a t = .ok (b, u) := by
  rw [run_bind] at h
  cases hm : m s with
  | error e =>
    rw [hm] at h
    cases h
  | ok p =>
    rw [hm] at h
    exact ⟨p.1,p.2,rfl,h⟩

def fail (e : ε) : Prog ε σ α := fun _ => .error e

def assertThat (c : Prop) [Decidable c] (e : ε) : Prog ε σ Unit := if c then Pure.pure () else fail e

def onlyIf (c : Prop) [Decidable c] (m : Prog ε σ Unit) : Prog ε σ Unit := if c then m else Pure.pure ()

theorem Meets.assertThat {c : Prop} [Decidable c] {e : ε} {s : σ} {Q : Unit → σ → Prop} (hc : c) (h : Q () s) :
    Meets (assertThat c e) s Q := by
  rw [Prog.assertThat, if_pos hc]
  exact Meets.pure h

theorem Meets.onlyIf {c : Prop} [Decidable c] {m : Prog ε σ Unit} {s : σ} {Q : Unit → σ → Prop}
    (hm : c → Meets m s Q) (h : ¬ c → Q () s) : Meets (onlyIf c m) s Q := by
  rw [Prog.onlyIf]
  split
  · exact hm ‹_›
  · exact Meets.pure (h ‹_›)

theorem Meets.ite {c : Prop} [Decidable c] {m m' : Prog ε σ α} {s : σ} {Q : α → σ → Prop}
    (hm : c → Meets m s Q) (hm' : ¬ c → Meets m' s Q) : Meets (if c then m else m') s Q := by
  split
  · exact hm ‹_›
  · exact hm' ‹_›

def onPart {ε' : Type} (part : σ → τ) (put : τ → σ → σ) (err : ε' → ε) (m : Prog ε' τ α) : Prog ε σ α :=
  fun s => match m (part s) with
    | .error e => .error (err e)
    | .ok (a, t) => .ok (a, put t s)

theorem Meets.onPart {ε' : Type} {part : σ → τ} {put : τ → σ → σ} {err : ε' → ε} {m : Prog ε' τ α} {s : σ}
    {Q : α → τ → Prop} {R : α → σ → Prop} (h : Meets m (part s) Q) (hR : ∀ a t, Q a t → R a (put t s)) :
    Meets (onPart part put err m) s R := by
  obtain ⟨a,t,hrun,hQ⟩ := h
  exact ⟨a,_,by simp only [Prog.onPart, hrun],hR a t hQ⟩

structure Returns (m : Prog ε σ α) (Q : α → Prop) : Prop where
  of_run : ∀ s a t, m s = .ok (a, t) → Q a

section Returns
variable {m m' : Prog ε σ α} {Q R : α → Prop}

theorem Returns.mono (h : Returns m Q) (hQR : ∀ a, Q a → R a) : Returns m R := by
  constructor
  intro s a t hrun
  exact hQR a (h.of_run s a t hrun)

theorem Returns.trivial : Returns m fun _ => True := ⟨fun _ _ _ _ => True.intro⟩

theorem Returns.pure {a : α} (h : Q a) : Returns (Pure.pure a : Prog ε σ α) Q := by
  constructor
  intro s b t hrun
  cases hrun
  exact h

theorem Returns.fail {e : ε} : Returns (fail e : Prog ε σ α) Q := by
  constructor
  intro s a t hrun
  cases hrun

theorem Returns.bind {f : α → Prog ε σ β} {S : β → Prop} (h : Returns m Q) (hf : ∀ a, Q a → Returns (f a) S) :
    Returns (m >>= f) S := by
  constructor
  intro s b u hrun
  obtain ⟨a,t,hm,hrun⟩ := of_bind hrun
  exact (hf a (h.of_run s a t hm)).of_run t b u hrun

/-- Nothing is to be known of what the first program returns. -/
theorem Returns.after {f : α → Prog ε σ β} {S : β → Prop} (hf : ∀ a, Returns (f a) S) : Returns (m >>= f) S :=
  Returns.trivial.bind fun a _ => hf a

theorem Returns.ite {c : Prop} [Decidable c] (hm : c → Returns m Q) (hm' : ¬ c → Returns m' Q) :
    Returns (if c then m else m') Q := by
  split
  · exact hm ‹_›
  · exact hm' ‹_›

theorem Returns.assertThat {c : Prop} [Decidable c] {e : ε} : Returns (assertThat c e : Prog ε σ Unit) fun _ => c := by
  constructor
  intro s _ t hrun
  by_contra hc
  rw [Prog.assertThat, if_neg hc] at hrun
  cases hrun

end Returns

structure Ensures (I : σ → Prop) (m : Prog ε σ α) (Q : α → Prop) : Prop where
  meets : ∀ s, I s → Meets m s fun a t => Q a ∧ I t

section Ensures
variable {I J : σ → Prop} {m m' : Prog ε σ α} {Q R : α → Prop}

theorem Ensures.mono (h : Ensures I m Q) (hQR : ∀ a, Q a → R a) : Ensures I m R := by
  constructor
  intro s hs
  apply (h.meets s hs).mono
  intro a t hQ
  exact ⟨hQR a hQ.1,hQ.2⟩

theorem Ensures.pure {a : α} (h : Q a) : Ensures I (Pure.pure a : Prog ε σ α) Q := by
  constructor
  intro s hs
  exact Meets.pure ⟨h,hs⟩

theorem Ensures.bind {f : α → Prog ε σ β} {S : β → Prop} (h : Ensures I m Q) (hf : ∀ a, Q a → Ensures I (f a) S) :
    Ensures I (m >>= f) S := by
  constructor
  intro s hs
  apply (h.meets s hs).bind
  intro a t hQ
  exact (hf a hQ.1).meets t hQ.2

theorem Ensures.get_bind {f : σ → Prog ε σ α} (h : ∀ s, I s → Ensures I (f s) Q) : Ensures I (get >>= f) Q := by
  constructor
  intro s hs
  have hget : Meets (get : Prog ε σ σ) s fun a t => a = s ∧ t = s := Meets.get ⟨rfl,rfl⟩
  apply hget.bind
  rintro a t ⟨rfl,rfl⟩
  exact (h _ hs).meets _ hs

/-- A change of the state may make the invariant stronger. -/
theorem Ensures.modify_bind {f : σ → σ} (hf : ∀ s, I s → J (f s)) (h : Ensures J m Q) (hJ : ∀ s, J s → I s) :
    Ensures I (modify f >>= fun _ => m) Q := by
  constructor
  intro s hs
  have hmodify : Meets (modify f : Prog ε σ PUnit) s fun _ t => t = f s := Meets.modify rfl
  apply hmodify.bind
  rintro _ t rfl
  apply (h.meets _ (hf s hs)).mono
  intro a t hQ
  exact ⟨hQ.1,hJ t hQ.2⟩

theorem Ensures.assertThat {c : Prop} [Decidable c] {e : ε} (hc : c) :
    Ensures I (assertThat c e : Prog ε σ Unit) fun _ => True := by
  constructor
  intro s hs
  exact Meets.assertThat hc ⟨True.intro,hs⟩

theorem Ensures.onlyIf {c : Prop} [Decidable c] {m : Prog ε σ Unit} (hm : c → Ensures I m fun _ => True) :
    Ensures I (onlyIf c m) fun _ => True := by
  constructor
  intro s hs
  exact Meets.onlyIf (fun hc => (hm hc).meets s hs) fun _ => ⟨True.intro,hs⟩

theorem Ensures.ite {c : Prop} [Decidable c] (hm : c → Ensures I m Q) (hm' : ¬ c → Ensures I m' Q) :
    Ensures I (if c then m else m') Q := by
  split
  · exact hm ‹_›
  · exact hm' ‹_›

end Ensures

structure EnsuresOr (E : ε → Prop) (I : σ → Prop) (m : Prog ε σ α) (Q : α → Prop) : Prop where
  returns : ∀ s a t, I s → m s = .ok (a, t) → Q a ∧ I t
  fails : ∀ s e, I s → m s = .error e → E e

section EnsuresOr
variable {E : ε → Prop} {I J : σ → Prop} {m m' : Prog ε σ α} {Q R : α → Prop}

theorem EnsuresOr.ensures (h : EnsuresOr (fun _ => False) I m Q) : Ensures I m Q := by
  constructor
  intro s hs
  cases hrun : m s with
  | error e => exact (h.fails s e hs hrun).elim
  | ok r => exact ⟨r.1,r.2,hrun,h.returns s r.1 r.2 hs hrun⟩

theorem Ensures.orFails (h : Ensures I m Q) : EnsuresOr E I m Q := by
  refine ⟨fun s a t hs hrun => (h.meets s hs).of_run hrun,fun s e hs hrun => ?_⟩
  obtain ⟨a,t,hok,_⟩ := h.meets s hs
  rw [hrun] at hok
  cases hok

theorem EnsuresOr.mono (h : EnsuresOr E I m Q) (hQR : ∀ a, Q a → R a) : EnsuresOr E I m R := by
  refine ⟨fun s a t hs hrun => ?_,h.fails⟩
  obtain ⟨hQ,ht⟩ := h.returns s a t hs hrun
  exact ⟨hQR a hQ,ht⟩

theorem EnsuresOr.pure {a : α} (h : Q a) : EnsuresOr E I (Pure.pure a : Prog ε σ α) Q := (Ensures.pure h).orFails

theorem EnsuresOr.bind {f : α → Prog ε σ β} {S : β → Prop} (h : EnsuresOr E I m Q)
    (hf : ∀ a, Q a → EnsuresOr E I (f a) S) : EnsuresOr E I (m >>= f) S := by
  constructor
  · intro s b u hs hrun
    obtain ⟨a,t,hm,hrun⟩ := of_bind hrun
    obtain ⟨hQ,ht⟩ := h.returns s a t hs hm
    exact (hf a hQ).returns t b u ht hrun
  · intro s e hs hrun
    rw [run_bind] at hrun
    cases hm : m s with
    | error e' =>
      rw [hm] at hrun
      cases hrun
      exact h.fails s e hs hm
    | ok r =>
      rw [hm] at hrun
      obtain ⟨hQ,ht⟩ := h.returns s r.1 r.2 hs hm
      exact (hf r.1 hQ).fails r.2 e ht hrun

theorem EnsuresOr.modify_bind {f : σ → σ} (hf : ∀ s, I s → I (f s)) (h : EnsuresOr E I m Q) :
    EnsuresOr E I (modify f >>= fun _ => m) Q := by
  constructor
  · intro s a t hs hrun
    exact h.returns (f s) a t (hf s hs) hrun
  · intro s e hs hrun
    exact h.fails (f s) e (hf s hs) hrun

theorem EnsuresOr.assertThat {c : Prop} [Decidable c] {e : ε} (hc : c) :
    EnsuresOr E I (assertThat c e : Prog ε σ Unit) fun _ => True := (Ensures.assertThat hc).orFails

theorem EnsuresOr.ite {c : Prop} [Decidable c] (hm : c → EnsuresOr E I m Q) (hm' : ¬ c → EnsuresOr E I m' Q) :
    EnsuresOr E I (if c then m else m') Q := by
  split
  · exact hm ‹_›
  · exact hm' ‹_›

end EnsuresOr

structure Decides (m : Prog ε σ α) (s : σ) (c : Prop) (Q : α → σ → Prop) : Prop where
  meets : c → Meets m s Q
  fails : ¬ c → ∃ e, m s = .error e

section Decides
variable {m : Prog ε σ α} {s : σ} {c d : Prop} {Q : α → σ → Prop}

theorem Decides.isOk_iff (h : Decides m s c Q) : (∃ r, m s = .ok r) ↔ c := by
  constructor
  · rintro ⟨r,hr⟩
    by_contra hc
    obtain ⟨e,he⟩ := h.fails hc
    rw [hr] at he
    cases he
  · intro hc
    obtain ⟨a,t,hrun,_⟩ := h.meets hc
    exact ⟨(a, t),hrun⟩

theorem Decides.of_run (h : Decides m s c Q) {a : α} {t : σ} (hrun : m s = .ok (a,t)) : Q a t :=
  (h.meets (h.isOk_iff.mp ⟨(a,t),hrun⟩)).of_run hrun

/-- Of a program nothing is known but whether it returns. -/
theorem Decides.returns (m : Prog ε σ α) (s : σ) :
    Decides m s (∃ a t, m s = .ok (a,t)) fun a t => m s = .ok (a,t) := by
  refine ⟨fun ⟨a,t,hrun⟩ => ⟨a,t,hrun,hrun⟩,fun hnone => ?_⟩
  cases hrun : m s with
  | error e => exact ⟨e,rfl⟩
  | ok r => exact absurd ⟨_,_,hrun⟩ hnone

theorem Decides.of_meets (h : Meets m s Q) : Decides m s True Q := ⟨fun _ => h,fun hc => absurd trivial hc⟩

theorem Decides.pure {a : α} (h : Q a s) : Decides (Pure.pure a : Prog ε σ α) s True Q := .of_meets (Meets.pure h)

theorem Decides.congr {R : α → σ → Prop} (h : Decides m s c Q) (hc : c ↔ d) (hQ : c → ∀ a t, Q a t → R a t) :
    Decides m s d R :=
  ⟨fun hd => (h.meets (hc.mpr hd)).mono (hQ (hc.mpr hd)),fun hd => h.fails (mt hc.mp hd)⟩

theorem Decides.iff (h : Decides m s c Q) (hc : c ↔ d) : Decides m s d Q :=
  h.congr hc fun _ _ _ hQ => hQ

theorem Decides.bind {f : α → Prog ε σ β} {R : β → σ → Prop} (h : Decides m s c Q)
    (hf : ∀ a t, c → Q a t → Decides (f a) t d R) : Decides (m >>= f) s (c ∧ d) R := by
  constructor
  · rintro ⟨hc,hd⟩
    exact (h.meets hc).bind fun a t hQ => (hf a t hc hQ).meets hd
  · intro hnot
    by_cases hc : c
    · obtain ⟨a,t,hrun,hQ⟩ := h.meets hc
      obtain ⟨e,he⟩ := (hf a t hc hQ).fails fun hd => hnot ⟨hc,hd⟩
      exact ⟨e,by rw [run_bind, hrun]; exact he⟩
    · obtain ⟨e,he⟩ := h.fails hc
      exact ⟨e,by rw [run_bind, he]⟩

theorem Decides.after {f : α → Prog ε σ β} {R : β → σ → Prop} (h : Meets m s Q)
    (hf : ∀ a t, Q a t → Decides (f a) t c R) : Decides (m >>= f) s c R := by
  have hrun : Decides (m >>= f) s (True ∧ c) R := (Decides.of_meets h).bind fun a t _ => hf a t
  exact hrun.iff (by simp)

theorem Decides.get_bind {f : σ → Prog ε σ α} (h : Decides (f s) s c Q) : Decides (get >>= f) s c Q := by
  have hget : Meets (get : Prog ε σ σ) s fun a t => a = s ∧ t = s := Meets.get ⟨rfl,rfl⟩
  apply Decides.after hget
  rintro a t ⟨rfl,rfl⟩
  exact h

theorem Decides.assertThat [Decidable c] {e : ε} : Decides (assertThat c e) s c fun _ t => t = s := by
  by_cases hc : c
  · exact ⟨fun _ => Meets.assertThat hc rfl,fun hnot => absurd hc hnot⟩
  · rw [Prog.assertThat, if_neg hc]
    exact ⟨fun h => absurd h hc,fun _ => ⟨e,rfl⟩⟩

theorem Decides.onPart {ε' : Type} {part : σ → τ} {put : τ → σ → σ} {err : ε' → ε} {m : Prog ε' τ α}
    {Q : α → τ → Prop} {R : α → σ → Prop} (h : Decides m (part s) c Q) (hR : ∀ a t, Q a t → R a (put t s)) :
    Decides (onPart part put err m) s c R := by
  refine ⟨fun hc => (h.meets hc).onPart hR,fun hc => ?_⟩
  obtain ⟨e,he⟩ := h.fails hc
  exact ⟨err e,by simp only [Prog.onPart, he]⟩

theorem of_onPart {ε' : Type} {part : σ → τ} {put : τ → σ → σ} {err : ε' → ε} {m : Prog ε' τ α} {t : σ} {a : α}
    (h : onPart part put err m s = .ok (a,t)) : ∃ u, m (part s) = .ok (a,u) ∧ t = put u s := by
  unfold Prog.onPart at h
  cases hm : m (part s) with
  | error e =>
    rw [hm] at h
    cases h
  | ok r =>
    rw [hm] at h
    cases h
    exact ⟨_,rfl,rfl⟩

theorem of_lift {x : Except ε α} {s t : σ} {a : α} (h : (liftM x : Prog ε σ α) s = .ok (a,t)) : x = .ok a ∧ t = s := by
  cases x with
  | error e => cases h
  | ok b =>
    cases h
    exact ⟨rfl,rfl⟩

/-- A program that only computes. -/
theorem Decides.lift (x : Except ε α) (s : σ) :
    Decides (liftM x : Prog ε σ α) s (∃ a, x = .ok a) fun a t => x = .ok a ∧ t = s := by
  cases x with
  | error e => exact ⟨fun h => by simp at h,fun _ => ⟨e,rfl⟩⟩
  | ok a => exact ⟨fun _ => ⟨a,s,rfl,rfl,rfl⟩,fun h => absurd ⟨a,rfl⟩ h⟩

/-- A loop: `P` says what holds once the programs of a part of the list have run. -/
theorem Decides.forM {f : β → Prog ε σ Unit} {c : β → Prop} {P : List β → σ → Prop} (l : List β) (h₀ : P [] s)
    (h : ∀ before b t, b ∈ l → P before t → Decides (f b) t (c b) fun _ => P (before ++ [b])) :
    Decides (l.forM f) s (∀ b ∈ l, c b) fun _ => P l := by
  have hgen : ∀ before t, P before t → (∀ b ∈ l, ∀ before t, P before t →
      Decides (f b) t (c b) fun _ => P (before ++ [b])) →
      Decides (l.forM f) t (∀ b ∈ l, c b) fun _ => P (before ++ l) := by
    clear h
    induction l with
    | nil =>
      intro before t hP _
      exact (Decides.pure (by simpa using hP)).congr (by simp) fun _ _ _ hQ => hQ
    | cons b l ih =>
      intro before t hP h
      rw [List.forM_eq_forM, List.forM_cons]
      apply ((h b (List.mem_cons_self ..) before t hP).bind fun _ u _ hQ =>
        ih (before ++ [b]) u hQ fun b' hb' => h b' (List.mem_cons_of_mem _ hb')).congr
      · simp
      · intro _ _ u hQ
        simpa using hQ
  simpa using hgen [] s h₀ fun b hb before t hP => h before b t hb hP

end Decides

structure Attains (m : Prog ε σ α) (s : σ) (Q : α → σ → Prop) : Prop where
  of_run : ∀ a t, m s = .ok (a, t) → Q a t

section Attains
variable {m : Prog ε σ α} {s : σ} {Q R : α → σ → Prop}

theorem Meets.attains (h : Meets m s Q) : Attains m s Q := ⟨fun _ _ hrun => h.of_run hrun⟩

theorem Attains.mono (h : Attains m s Q) (hQR : ∀ a t, Q a t → R a t) : Attains m s R :=
  ⟨fun a t hrun => hQR a t (h.of_run a t hrun)⟩

theorem Attains.and (h : Attains m s Q) (h' : Attains m s R) : Attains m s fun a t => Q a t ∧ R a t :=
  ⟨fun a t hrun => ⟨h.of_run a t hrun,h'.of_run a t hrun⟩⟩

theorem Attains.all {ι : Sort*} {P : ι → α → σ → Prop} (h : ∀ i, Attains m s (P i)) : Attains m s fun a t => ∀ i, P i a t :=
  ⟨fun a t hrun i => (h i).of_run a t hrun⟩

theorem Attains.pure {a : α} (h : Q a s) : Attains (Pure.pure a : Prog ε σ α) s Q := (Meets.pure h).attains

theorem Attains.fail {e : ε} : Attains (fail e) s Q := by
  constructor
  intro a t hrun
  cases hrun

theorem Attains.bind {f : α → Prog ε σ β} {S : β → σ → Prop} (h : Attains m s Q) (hf : ∀ a t, Q a t → Attains (f a) t S) :
    Attains (m >>= f) s S := by
  constructor
  intro b u hrun
  obtain ⟨a,t,hm,hfa⟩ := of_bind hrun
  exact (hf a t (h.of_run a t hm)).of_run b u hfa

theorem Attains.get_bind {f : σ → Prog ε σ α} (h : Attains (f s) s Q) : Attains (get >>= f) s Q := ⟨h.of_run⟩

theorem Attains.lift (x : Except ε α) : Attains (liftM x : Prog ε σ α) s fun a t => x = .ok a ∧ t = s :=
  ⟨fun _ _ hrun => of_lift hrun⟩

theorem Attains.assertThat {c : Prop} [Decidable c] {e : ε} : Attains (assertThat c e) s fun _ t => c ∧ t = s := by
  by_cases hc : c
  · exact (Meets.assertThat hc ⟨hc,rfl⟩).attains
  · rw [Prog.assertThat, if_neg hc]
    exact Attains.fail

theorem Attains.onlyIf {c : Prop} [Decidable c] {m : Prog ε σ Unit} {Q : Unit → σ → Prop} (hm : c → Attains m s Q)
    (h : ¬ c → Q () s) : Attains (onlyIf c m) s Q := by
  rw [Prog.onlyIf]
  by_cases hc : c
  · rw [if_pos hc]
    exact hm hc
  · rw [if_neg hc]
    exact Attains.pure (h hc)

/-- A loop: `P` says what holds once the programs of a part of the list have run. -/
theorem Attains.forM {f : β → Prog ε σ Unit} {P : List β → σ → Prop} (l : List β) (h₀ : P [] s)
    (h : ∀ before b t, b ∈ l → P before t → Attains (f b) t fun _ => P (before ++ [b])) :
    Attains (l.forM f) s fun _ => P l := by
  have hgen : ∀ before t, P before t → (∀ b ∈ l, ∀ before t, P before t →
      Attains (f b) t fun _ => P (before ++ [b])) → Attains (l.forM f) t fun _ => P (before ++ l) := by
    clear h
    induction l with
    | nil =>
      intro before t hP _
      exact Attains.pure (by simpa using hP)
    | cons b l ih =>
      intro before t hP h
      rw [List.forM_eq_forM, List.forM_cons]
      apply (h b (List.mem_cons_self ..) before t hP).bind
      intro _ u hQ
      apply (ih (before ++ [b]) u hQ fun b' hb' => h b' (List.mem_cons_of_mem _ hb')).mono
      intro _ v hv
      simpa using hv
  simpa using hgen [] s h₀ fun b hb before t hP => h before b t hb hP

end Attains

end Prog
