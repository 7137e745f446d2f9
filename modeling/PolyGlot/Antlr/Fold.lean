import PolyGlot.Antlr.Translate

set_option autoImplicit false

/-! # What a translation step can do

The slots of `ExtractOneIR` are filled in source order, a fold step takes at
least two entries off a stack that has two, and a translated context is a
literal leaf or the fold of its children's entries. Every later fact about
translation is read off the relations `Folded` and `ChildItems`.
-/
namespace PolyGlot

def OneIR.slots (o : OneIR) : List IM :=
  (o.opPrefix.map IM.str).toList ++ (o.left.map IM.ir).toList ++ (o.opMiddle.map IM.str).toList ++
    (o.right.map IM.ir).toList ++ (o.opSuffix.map IM.str).toList

structure OneIR.Ordered (o : OneIR) : Prop where
  middle : o.opMiddle ≠ none → o.left ≠ none ∨ o.opPrefix ≠ none
  right : o.right ≠ none → o.left ≠ none ∨ o.opMiddle ≠ none
  suf : o.opSuffix ≠ none → o.opMiddle ≠ none ∨ o.right ≠ none

theorem OneIR.ordered_empty : OneIR.Ordered {} := by constructor <;> simp

/-- The automaton neither drops nor reorders an entry. -/
theorem OneIR.Ordered.slots_extract {o : OneIR} (ho : o.Ordered) (stk : List IM) :
    (extractOneIR o stk).1.slots ++ (extractOneIR o stk).2 = o.slots ++ stk := by
  fun_induction extractOneIR o stk with
  | case1 | case5 | case8 => rfl
  | case2 o s stk h ih | case3 o s stk _ h ih | case4 o s stk _ _ h ih | case6 o t stk h ih | case7 o t stk _ h ih =>
    obtain ⟨hm,hr,hs⟩ := ho
    simp only [Bool.and_eq_true, Option.isNone_iff_eq_none] at *
    rw [ih (by constructor <;> grind)]
    simp only [slots]
    grind

theorem extractOneIR_slots (stk : List IM) :
    (extractOneIR {} stk).1.slots ++ (extractOneIR {} stk).2 = stk :=
  OneIR.ordered_empty.slots_extract stk

theorem slots_length_le (o : OneIR) (stk : List IM) :
    o.slots.length ≤ (extractOneIR o stk).1.slots.length := by
  fun_induction extractOneIR o stk with
  | case1 | case5 | case8 => exact le_rfl
  | case2 o s stk h ih | case3 o s stk _ h ih | case4 o s stk _ _ h ih | case6 o t stk h ih | case7 o t stk _ h ih =>
    refine le_trans ?_ ih
    simp only [Bool.and_eq_true, Option.isNone_iff_eq_none] at h
    simp [OneIR.slots, h]

/-- A step consumes two entries when there are two. -/
theorem two_le_slots (a b : IM) (stk : List IM) : 2 ≤ (extractOneIR {} (a :: b :: stk)).1.slots.length := by
  cases a <;> cases b <;> simp only [extractOneIR, Option.isNone_none, Option.isNone_some, Bool.and_self,
    Bool.false_and, Bool.and_false, if_true, Bool.false_eq_true, if_false] <;>
    exact le_trans (by simp [OneIR.slots]) (slots_length_le _ stk)

theorem extractOneIR_length {stk : List IM} (h : 1 < stk.length) :
    (extractOneIR {} stk).2.length + 1 < stk.length := by
  match stk, h with
  | a :: b :: stk, _ =>
    have hs := congrArg List.length (extractOneIR_slots (a :: b :: stk))
    have h2 := two_le_slots a b stk
    rw [List.length_append] at hs
    omega

theorem extractOneIR_singleton (a : IM) : (extractOneIR {} [a]).2 = [] := by
  cases a <;> rfl

section
variable (uninit : StatementID → ScopeID)

/-- The fold loop on a stack, from the id `id` to the id `id'`: every turn turns
the filled slots into a node, of type `kUnknown` while entries are left. -/
inductive Folded (type : IRType) : StatementID → List IM → IR → StatementID → Prop
  | last (o : OneIR) (id : StatementID) : Folded type id o.slots (o.toIR uninit type id) (id + 1)
  | more (o : OneIR) {id id' : StatementID} {stk : List IM} {t : IR} (hstk : stk ≠ [])
      (h : Folded type (id + 1) (.ir (o.toIR uninit kUnknown id) :: stk) t id') :
      Folded type id (o.slots ++ stk) t id'

/-- The loop ends with exactly one entry, a node, on every non-empty stack. -/
theorem foldLoop_folded (type : IRType) {stk : List IM} (hstk : stk ≠ []) (id : StatementID)
    {fuel : ℕ} (hfuel : stk.length ≤ fuel) :
    ∃ t id', foldLoop uninit type fuel stk id = some ([.ir t], id') ∧ Folded uninit type id stk t id' := by
  induction fuel generalizing stk id with
  | zero => exact absurd (List.length_eq_zero_iff.mp (by omega)) hstk
  | succ fuel ih =>
    have hslots := extractOneIR_slots stk
    cases hrest : (extractOneIR {} stk).2 with
    | nil =>
      have hlast : Folded uninit type id _ _ _ := .last (extractOneIR {} stk).1 id
      rw [hrest, List.append_nil] at hslots
      rw [hslots] at hlast
      exact ⟨_,_,by simp [foldLoop, foldStep, hrest],hlast⟩
    | cons a rest =>
      have hlong : 1 < stk.length := by
        match stk, hstk with
        | [a], _ => simp [extractOneIR_singleton] at hrest
        | _ :: _ :: _, _ => simp
      have hlt := extractOneIR_length hlong
      have hne : foldStep uninit type stk id ≠ [] := by simp [foldStep]
      obtain ⟨t,id',hrun,ht⟩ := ih hne (id + 1) (by simp only [foldStep, List.length_cons]; omega)
      refine ⟨t,id',?_,?_⟩
      · simp only [foldLoop]
        rw [if_pos (by simp [foldStep, hrest])]
        exact hrun
      · simp only [foldStep, hrest, reduceCtorEq, if_false] at ht
        rw [← hslots, hrest]
        exact Folded.more _ (by simp) ht

theorem foldItems_ok (ctx : RuleContext) {stk : List IM} (hstk : stk ≠ []) (id : StatementID) :
    ∃ t id', foldItems uninit ctx stk id = .ok (some (decorate ctx t), id') ∧
      Folded uninit ctx.ruleIndex id stk t id' := by
  obtain ⟨t,id',hrun,ht⟩ := foldLoop_folded uninit ctx.ruleIndex hstk id le_rfl
  exact ⟨t,id',by simp [foldItems, hrun],ht⟩

/-- The node that a fold ends with has the type of the rule and nothing set. -/
theorem Folded.root {type : IRType} {id id' : StatementID} {stk : List IM} {t : IR}
    (h : Folded uninit type id stk t id') :
    ∃ n l r, t = .node n l r ∧ n.type = type ∧ n.dataType = .kDataDefault ∧ n.scopeType = .kScopeDefault := by
  induction h with
  | last o id => exact ⟨_,_,_,rfl,rfl,rfl,rfl⟩
  | more o hstk h ih => exact ih

/-- What the loop over the children leaves on the stack: the terminals other
than `<EOF>` and the translations that are not null, in source order. -/
inductive ChildItems : List ParseTree → StatementID → List IM → StatementID → Prop
  | nil (id : StatementID) : ChildItems [] id [] id
  | eof {cs : List ParseTree} {id id' : StatementID} {stk : List IM} (h : ChildItems cs id stk id') :
      ChildItems (.terminal eofText :: cs) id stk id'
  | text {text : Str} {cs : List ParseTree} {id id' : StatementID} {stk : List IM} (ht : text ≠ eofText)
      (h : ChildItems cs id stk id') : ChildItems (.terminal text :: cs) id (.str text :: stk) id'
  | null {ctx : RuleContext} {gcs cs : List ParseTree} {id id' id'' : StatementID} {stk : List IM}
      (ht : translateNode uninit (.rule ctx gcs) id = .ok (none, id')) (h : ChildItems cs id' stk id'') :
      ChildItems (.rule ctx gcs :: cs) id stk id''
  | tree {ctx : RuleContext} {gcs cs : List ParseTree} {id id' id'' : StatementID} {t : IR} {stk : List IM}
      (ht : translateNode uninit (.rule ctx gcs) id = .ok (some t, id')) (h : ChildItems cs id' stk id'') :
      ChildItems (.rule ctx gcs :: cs) id (.ir t :: stk) id''

inductive ContextStep (ctx : RuleContext) (cs : List ParseTree) :
    StatementID → Option IR → StatementID → Prop
  | string (id : StatementID) (hs : ctx.isStringLiteral) : ContextStep ctx cs id
      (some (decorate ctx (IR.ofData uninit ctx.ruleIndex (.string (getTexts cs)) id))) (id + 1)
  | int (id : StatementID) {i : ℤ} (hs : ctx.isStringLiteral = false) (hi : ctx.isIntLiteral)
      (htext : stoi (getTexts cs) = some i) : ContextStep ctx cs id
      (some (decorate ctx (IR.ofData uninit ctx.ruleIndex (.int i) id))) (id + 1)
  | null {id id' : StatementID} (hs : ctx.isStringLiteral = false) (hi : ctx.isIntLiteral = false)
      (htext : getTexts cs = eofText ∨ getTexts cs = []) (hitems : ChildItems uninit cs id [] id') :
      ContextStep ctx cs id none id'
  | fold {id id₁ id' : StatementID} {stk : List IM} {t : IR} (hs : ctx.isStringLiteral = false)
      (hi : ctx.isIntLiteral = false) (hitems : ChildItems uninit cs id stk id₁) (hstk : stk ≠ [])
      (hfold : Folded uninit ctx.ruleIndex id₁ stk t id') : ContextStep ctx cs id (some (decorate ctx t)) id'

variable {uninit}

theorem translateChildren_items {cs : List ParseTree} {id id' : StatementID} {stk : List IM}
    (h : translateChildren uninit cs id = .ok (stk, id')) : ChildItems uninit cs id stk id' := by
  induction cs generalizing id id' stk with
  | nil =>
    cases h
    exact .nil id
  | cons c cs ih =>
    cases c with
    | terminal text =>
      cases hrest : translateChildren uninit cs id with
      | error f => simp [translateChildren, hrest] at h
      | ok p =>
        simp only [translateChildren, hrest, Except.ok.injEq, Prod.mk.injEq] at h
        obtain ⟨rfl,rfl⟩ := h
        by_cases ht : text = eofText
        · subst ht
          simpa using ChildItems.eof (ih hrest)
        · simpa [ht] using ChildItems.text ht (ih hrest)
    | rule ctx gcs =>
      cases hc : translateNode uninit (.rule ctx gcs) id with
      | error f => simp [translateChildren, hc] at h
      | ok p =>
        cases hrest : translateChildren uninit cs p.2 with
        | error f => simp [translateChildren, hc, hrest] at h
        | ok q =>
          simp only [translateChildren, hc, hrest, Except.ok.injEq, Prod.mk.injEq] at h
          obtain ⟨rfl,rfl⟩ := h
          rcases p with ⟨_ | t,id₁⟩
          · exact .null hc (ih hrest)
          · exact .tree hc (ih hrest)

theorem translateNode_step {ctx : RuleContext} {cs : List ParseTree} {id id' : StatementID} {r : Option IR}
    (h : translateNode uninit (.rule ctx cs) id = .ok (r, id')) :
    ContextStep uninit ctx cs id r id' := by
  cases hs : ctx.isStringLiteral with
  | true =>
    simp only [translateNode, hs, if_true, Except.ok.injEq, Prod.mk.injEq] at h
    obtain ⟨rfl,rfl⟩ := h
    exact .string id hs
  | false =>
    cases hi : ctx.isIntLiteral with
    | true =>
      cases htext : stoi (getTexts cs) with
      | none => simp [translateNode, hs, hi, htext] at h
      | some i =>
        simp only [translateNode, hs, hi, htext, Bool.false_eq_true, if_false, if_true, Except.ok.injEq,
          Prod.mk.injEq] at h
        obtain ⟨rfl,rfl⟩ := h
        exact .int id hs hi htext
    | false =>
      cases cs with
      | nil =>
        simp only [translateNode, hs, hi, Bool.false_eq_true, if_false, List.isEmpty_nil, if_true,
          Except.ok.injEq, Prod.mk.injEq] at h
        obtain ⟨rfl,rfl⟩ := h
        exact .null hs hi (.inr rfl) (.nil id)
      | cons c cs =>
        cases hrun : translateChildren uninit (c :: cs) id with
        | error f => simp [translateNode, hs, hi, hrun] at h
        | ok p =>
          obtain ⟨stk,id₁⟩ := p
          have hitems := translateChildren_items hrun
          simp only [translateNode, hs, hi, hrun, Bool.false_eq_true, if_false, List.isEmpty_cons] at h
          cases stk with
          | nil =>
            split at h
            · split at h
              · cases h
                exact .null hs hi ‹_› hitems
              · cases h
            · contradiction
          | cons a stk =>
            obtain ⟨t,id₂,hfold,ht⟩ := foldItems_ok uninit ctx (List.cons_ne_nil a stk) id₁
            simp only [List.isEmpty_cons, Bool.false_eq_true, if_false, hfold, Except.ok.injEq, Prod.mk.injEq] at h
            obtain ⟨rfl,rfl⟩ := h
            exact .fold hs hi hitems (List.cons_ne_nil a stk) ht

end

/-- Induction over a parse tree: a context may use its children. -/
theorem ParseTree.induction {P : ParseTree → Prop} (terminal : ∀ text, P (.terminal text))
    (rule : ∀ ctx cs, (∀ c ∈ cs, P c) → P (.rule ctx cs)) (t : ParseTree) : P t :=
  match t with
  | .terminal text => terminal text
  | .rule ctx cs => rule ctx cs fun c _ => ParseTree.induction terminal rule c

section
variable {uninit : StatementID → ScopeID} {P : IR → Prop}

theorem Folded.induction (hop : ∀ type op l r id, P l → P r → P (IR.ofOperator uninit type op l r id))
    (hnil : P .nil) {type : IRType} {id id' : StatementID} {stk : List IM} {t : IR}
    (h : Folded uninit type id stk t id') (hstk : ∀ u, .ir u ∈ stk → P u) : P t := by
  have hslot : ∀ (o : OneIR), (∀ u, .ir u ∈ o.slots → P u) → ∀ type id, P (o.toIR uninit type id) := by
    intro o ho type id
    apply hop
    · cases hl : o.left with
      | none => exact hnil
      | some u => exact ho u (by simp [OneIR.slots, hl])
    · cases hr : o.right with
      | none => exact hnil
      | some u => exact ho u (by simp [OneIR.slots, hr])
  induction h with
  | last o id => exact hslot o hstk _ _
  | more o hne h ih =>
    apply ih
    intro u hu
    rcases List.mem_cons.mp hu with hu | hu
    · cases hu
      exact hslot o (fun u hu => hstk u (List.mem_append_left _ hu)) _ _
    · exact hstk u (List.mem_append_right _ hu)

theorem ChildItems.of_mem {cs : List ParseTree} {id id' : StatementID} {stk : List IM}
    (h : ChildItems uninit cs id stk id') (hcs : ∀ c ∈ cs, ∀ i i' u, translateNode uninit c i = .ok (some u, i') → P u)
    {u : IR} (hu : .ir u ∈ stk) : P u := by
  induction h with
  | nil id => simp at hu
  | eof h ih | null ht h ih => exact ih (fun c hc => hcs c (List.mem_cons_of_mem _ hc)) hu
  | text ht h ih =>
    rcases List.mem_cons.mp hu with hu | hu
    · cases hu
    · exact ih (fun c hc => hcs c (List.mem_cons_of_mem _ hc)) hu
  | tree ht h ih =>
    rcases List.mem_cons.mp hu with hu | hu
    · cases hu
      exact hcs _ (List.mem_cons_self ..) _ _ _ ht
    · exact ih (fun c hc => hcs c (List.mem_cons_of_mem _ hc)) hu

/-- A property of trees that every constructor call of the translator keeps. -/
theorem translateNode_induction (hnil : P .nil)
    (hdata : ∀ type data id, data ≠ .monostate → P (IR.ofData uninit type data id))
    (hop : ∀ type op l r id, P l → P r → P (IR.ofOperator uninit type op l r id))
    (hdecorate : ∀ ctx u, P u → P (decorate ctx u)) {t : ParseTree} {id id' : StatementID} {u : IR}
    (h : translateNode uninit t id = .ok (some u, id')) : P u := by
  induction t using ParseTree.induction generalizing id id' u with
  | terminal text => simp [translateNode] at h
  | rule ctx cs ih =>
    cases translateNode_step h with
    | string hs => exact hdecorate _ _ (hdata _ _ _ (by simp))
    | int hs hi htext => exact hdecorate _ _ (hdata _ _ _ (by simp))
    | fold hs hi hitems hstk hfold =>
      apply hdecorate
      apply hfold.induction hop hnil
      intro u hu
      exact hitems.of_mem (fun c hc i i' u => ih c hc) hu

end

end PolyGlot
