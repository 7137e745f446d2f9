import Mathlib.Tactic

set_option autoImplicit false

/-! # Saturation under finitely many rules

A rule adds its head once its body is there. `saturate` goes over the rules that
have not fired yet, letting each see the heads of those before it, until a whole
pass fires none.
-/
namespace Saturation

variable {α ρ : Type*} [DecidableEq α] (body : ρ → Finset α) (head : ρ → α)

inductive Derives (rules : List ρ) (start : Finset α) : α → Prop
  | start {a : α} : a ∈ start → Derives rules start a
  | fire {r : ρ} : r ∈ rules → (∀ b ∈ body r, Derives rules start b) → Derives rules start (head r)

def pass : List ρ → Finset α → List ρ × Finset α
  | [], cur => ([], cur)
  | r :: rs, cur =>
    if body r ⊆ cur then pass rs (insert (head r) cur)
    else
      let next := pass rs cur
      (r :: next.1, next.2)

def saturate : ℕ → List ρ → Finset α → List ρ × Finset α
  | 0, rs, cur => (rs, cur)
  | fuel + 1, rs, cur =>
    let next := pass body head rs cur
    if next.1.length < rs.length then saturate fuel next.1 next.2 else next

/-- The passes as a loop that ends with one that fires no rule; `none` where
`fuel` passes do not get there. -/
def passes : ℕ → List ρ → Finset α → Option (List ρ × Finset α)
  | 0, _, _ => none
  | fuel + 1, rs, cur =>
    let next := pass body head rs cur
    if next.1.length < rs.length then passes fuel next.1 next.2 else some next

variable {body head} {rules rs : List ρ} {start cur : Finset α}

structure Halfway (body : ρ → Finset α) (head : ρ → α) (rules : List ρ) (start : Finset α) (rs : List ρ)
    (cur : Finset α) : Prop where
  started : start ⊆ cur
  derived : ∀ a ∈ cur, Derives body head rules start a
  left : ∀ r ∈ rs, r ∈ rules
  fired : ∀ r ∈ rules, r ∈ rs ∨ body r ⊆ cur ∧ head r ∈ cur

theorem Halfway.pass {done : List ρ} (h : Halfway body head rules start (done ++ rs) cur) :
    Halfway body head rules start (done ++ (pass body head rs cur).1) (pass body head rs cur).2 := by
  induction rs generalizing done cur with
  | nil => exact h
  | cons r rs ih =>
    unfold Saturation.pass
    by_cases hr : body r ⊆ cur
    · rw [if_pos hr]
      apply ih
      have hrule : r ∈ rules := h.left r (by simp)
      refine ⟨h.started.trans (Finset.subset_insert _ _),?_,?_,?_⟩
      · intro a ha
        rcases Finset.mem_insert.mp ha with rfl | ha
        · exact .fire hrule fun b hb => h.derived b (hr hb)
        · exact h.derived a ha
      · intro r' hr'
        apply h.left r'
        rcases List.mem_append.mp hr' with hr' | hr' <;> simp [hr']
      · intro r' hr'
        rcases h.fired r' hr' with hmem | ⟨hb,hh⟩
        · rcases List.mem_append.mp hmem with hmem | hmem
          · exact .inl (List.mem_append_left _ hmem)
          · rcases List.mem_cons.mp hmem with rfl | hmem
            · exact .inr ⟨hr.trans (Finset.subset_insert _ _),Finset.mem_insert_self ..⟩
            · exact .inl (List.mem_append_right _ hmem)
        · exact .inr ⟨hb.trans (Finset.subset_insert _ _),Finset.mem_insert_of_mem hh⟩
    · rw [if_neg hr]
      have happend : Halfway body head rules start ((done ++ [r]) ++ rs) cur := by simpa using h
      simpa using ih happend

theorem pass_length_le (rs : List ρ) (cur : Finset α) : (pass body head rs cur).1.length ≤ rs.length := by
  induction rs generalizing cur with
  | nil => exact le_rfl
  | cons r rs ih =>
    unfold pass
    split
    · exact (ih _).trans (Nat.le_succ _)
    · exact Nat.succ_le_succ (ih _)

/-- A pass that fires no rule finds every body wanting. -/
theorem pass_stuck (h : ¬ (pass body head rs cur).1.length < rs.length) :
    pass body head rs cur = (rs, cur) ∧ ∀ r ∈ rs, ¬ body r ⊆ cur := by
  induction rs generalizing cur with
  | nil => exact ⟨rfl,by simp⟩
  | cons r rs ih =>
    unfold pass at h ⊢
    by_cases hr : body r ⊆ cur
    · rw [if_pos hr] at h
      exact absurd (Nat.lt_succ_of_le (pass_length_le rs _)) h
    · rw [if_neg hr] at h ⊢
      simp only [List.length_cons, Nat.add_lt_add_iff_right] at h
      obtain ⟨heq,hall⟩ := ih h
      rw [heq]
      refine ⟨rfl,?_⟩
      intro r' hr'
      rcases List.mem_cons.mp hr' with rfl | hr'
      · exact hr
      · exact hall r' hr'

theorem Halfway.saturate {fuel : ℕ} (h : Halfway body head rules start rs cur) (hfuel : rs.length < fuel) :
    Halfway body head rules start (saturate body head fuel rs cur).1 (saturate body head fuel rs cur).2 ∧
      ∀ r ∈ (saturate body head fuel rs cur).1, ¬ body r ⊆ (saturate body head fuel rs cur).2 := by
  induction fuel generalizing rs cur with
  | zero => omega
  | succ fuel ih =>
    have hstart : Halfway body head rules start ([] ++ rs) cur := h
    have hpass := hstart.pass
    unfold Saturation.saturate
    dsimp only
    split
    · rename_i hless
      exact ih hpass (by omega)
    · rename_i hsame
      obtain ⟨heq,hall⟩ := pass_stuck hsame
      rw [heq]
      exact ⟨h,hall⟩

/-- Every pass but the last fires a rule. -/
theorem passes_eq {fuel : ℕ} (hfuel : rs.length < fuel) :
    passes body head fuel rs cur = some (saturate body head fuel rs cur) := by
  induction fuel generalizing rs cur with
  | zero => omega
  | succ fuel ih =>
    unfold passes saturate
    dsimp only
    split
    · rename_i hless
      exact ih (by omega)
    · rfl

/-- More passes than it takes change nothing. -/
theorem saturate_stable {fuel fuel' : ℕ} (hfuel : rs.length < fuel) (hfuel' : rs.length < fuel') :
    saturate body head fuel rs cur = saturate body head fuel' rs cur := by
  induction fuel generalizing rs cur fuel' with
  | zero => omega
  | succ fuel ih =>
    cases fuel' with
    | zero => omega
    | succ fuel' =>
      unfold saturate
      dsimp only
      split
      · rename_i hless
        exact ih (by omega) (by omega)
      · rfl

theorem saturate_subset {fuel : ℕ} {r : ρ} (h : r ∈ (saturate body head fuel rules start).1) : r ∈ rules := by
  have hpass : ∀ (rs : List ρ) (cur : Finset α), (pass body head rs cur).1 ⊆ rs := by
    intro rs
    induction rs with
    | nil => exact fun _ => List.Subset.refl _
    | cons r rs ih =>
      intro cur
      unfold pass
      split
      · exact List.subset_cons_of_subset _ (ih _)
      · exact List.cons_subset_cons _ (ih _)
  induction fuel generalizing rules start with
  | zero => exact h
  | succ fuel ih =>
    unfold saturate at h
    dsimp only at h
    split at h
    · exact hpass _ _ (ih h)
    · exact hpass _ _ h

/-- The rules left over are those whose body is never derived. -/
theorem mem_saturate (body : ρ → Finset α) (head : ρ → α) (start : Finset α) {fuel : ℕ} (hfuel : rules.length < fuel) {r : ρ} (hr : r ∈ rules) :
    r ∈ (saturate body head fuel rules start).1 ↔ ¬ ∀ b ∈ body r, Derives body head rules start b := by
  have hinit : Halfway body head rules start rules start :=
    ⟨Finset.Subset.refl _,fun a ha => .start ha,fun r hr => hr,fun r hr => .inl hr⟩
  obtain ⟨hend,hstuck⟩ := hinit.saturate hfuel
  have hcur : ∀ a, Derives body head rules start a → a ∈ (saturate body head fuel rules start).2 := by
    intro a ha
    induction ha with
    | start ha => exact hend.started ha
    | fire hr hbody ih =>
      rcases hend.fired _ hr with hleft | hfired
      · exact absurd (fun b hb => ih b hb) (hstuck _ hleft)
      · exact hfired.2
  constructor
  · intro hleft hall
    exact hstuck r hleft fun b hb => hcur b (hall b hb)
  · intro hnot
    rcases hend.fired r hr with hleft | hfired
    · exact hleft
    · exact absurd (fun b hb => hend.derived b (hfired.1 hb)) hnot

omit [DecidableEq α] in
variable (body head) in
/-- The rules whose body is derived are the least set of rules in which every rule
is whose body is given or made by the heads of that set. -/
theorem derivable_isLeast (rules : List ρ) (start : Finset α) :
    IsLeast {X : Set ρ | ∀ r ∈ rules, (∀ b ∈ body r, b ∈ start ∨ ∃ r' ∈ X, head r' = b) → r ∈ X}
      {r | r ∈ rules ∧ ∀ b ∈ body r, Derives body head rules start b} := by
  constructor
  · intro r hr hbody
    refine ⟨hr,fun b hb => ?_⟩
    rcases hbody b hb with hstart | ⟨r',⟨hr',hbody'⟩,rfl⟩
    · exact .start hstart
    · exact .fire hr' hbody'
  · rintro X hX r ⟨hr,hbody⟩
    have hmade : ∀ b, Derives body head rules start b → b ∈ start ∨ ∃ r' ∈ X, head r' = b := by
      intro b hb
      induction hb with
      | start h => exact .inl h
      | @fire r' hr' _ ih => exact .inr ⟨r',hX r' hr' ih,rfl⟩
    exact hX r hr fun b hb => hmade b (hbody b hb)

end Saturation
