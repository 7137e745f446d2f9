import PolyGlot.Antlr.Tokens
import PolyGlot.Support.TreePath

set_option autoImplicit false

/-! # Translation keeps the labels

The nodes of a translation whose type is not `kUnknown` are the translated rule
contexts of the parse tree, in the same order and under the same labels. A
context below a float literal is translated although the literal covers it.
-/
namespace PolyGlot

abbrev Label := IRType × DataType × ScopeType

def RuleContext.label (ctx : RuleContext) : Label := (ctx.ruleIndex, ctx.dataType, ctx.scopeType)

namespace IR

def labels (t : IR) : List Label :=
  (t.values.filter (·.type ≠ kUnknown)).map fun n => (n.type, n.dataType, n.scopeType)

def UnknownsPlain (t : IR) : Prop :=
  ∀ n ∈ t.values, n.type = kUnknown → n.dataType = .kDataDefault ∧ n.scopeType = .kScopeDefault

end IR

/-- `TranslateNode` returns a tree, not the null pointer; where the counter
stands does not matter. -/
def ParseTree.isTranslated (t : ParseTree) : Bool :=
  match translateNode (fun _ => 0) t 0 with
  | .ok (some _, _) => true
  | _ => false

mutual
/-- The labels in pre-order of the translated contexts that are not strictly
below a literal. -/
def ParseTree.contextLabels (literal : RuleContext → Bool) : ParseTree → List Label
  | .terminal _ => []
  | .rule ctx cs => (if (ParseTree.rule ctx cs).isTranslated then [ctx.label] else []) ++
      if literal ctx then [] else contextLabelsAll literal cs
def contextLabelsAll (literal : RuleContext → Bool) : List ParseTree → List Label
  | [] => []
  | c :: cs => c.contextLabels literal ++ contextLabelsAll literal cs
end

mutual
def ParseTree.isBlank : ParseTree → Bool
  | .terminal text => text = eofText
  | .rule ctx cs => !ctx.isLeafLiteral && allBlank cs
def allBlank : List ParseTree → Bool
  | [] => true
  | c :: cs => c.isBlank && allBlank cs
end

def ParseTree.isBare : ParseTree → Bool
  | .terminal _ => true
  | .rule ctx cs => (ParseTree.rule ctx cs).isBlank

mutual
/-- No context flagged `isFloatLiteral` only, unless it lies inside another
literal, has a child context with anything in it. -/
def ParseTree.FloatsBare : ParseTree → Prop
  | .terminal _ => True
  | .rule ctx cs =>
    if ctx.isLeafLiteral then True
    else if ctx.isFloatLiteral then ∀ c ∈ cs, c.isBare
    else AllFloatsBare cs
def AllFloatsBare : List ParseTree → Prop
  | [] => True
  | c :: cs => c.FloatsBare ∧ AllFloatsBare cs
end

section
variable {uninit : StatementID → ScopeID}

namespace IR

@[simp] theorem labels_nil : labels .nil = [] := rfl

@[simp] theorem labels_node (n : IRNode) (l r : IR) : labels (.node n l r) =
    (if n.type = kUnknown then [] else [(n.type, n.dataType, n.scopeType)]) ++ (labels l ++ labels r) := by
  by_cases h : n.type = kUnknown <;> simp [labels, BinaryTree.values, h]

theorem unknownsPlain_node {n : IRNode} {l r : IR} : UnknownsPlain (.node n l r) ↔
    (n.type = kUnknown → n.dataType = .kDataDefault ∧ n.scopeType = .kScopeDefault) ∧
      UnknownsPlain l ∧ UnknownsPlain r := by
  simp only [UnknownsPlain, BinaryTree.values, List.mem_cons, List.mem_append]
  grind

theorem unknownsPlain_nil : UnknownsPlain .nil := by simp [UnknownsPlain, BinaryTree.values]

end IR

/-- Every child context on a stack that comes out empty was translated to null. -/
theorem ChildItems.allBlank {cs : List ParseTree} {id id' : StatementID} {stk : List IM}
    (h : ChildItems uninit cs id stk id') (ih : ∀ c ∈ cs, ∀ i r i',
      translateNode uninit c i = .ok (r, i') → (c.isBlank = true ↔ r = none)) :
    allBlank cs = true ↔ stk = [] := by
  induction h with
  | nil id => simp [PolyGlot.allBlank]
  | eof h ihs =>
    rw [PolyGlot.allBlank, Bool.and_eq_true, ihs fun c hc => ih c (List.mem_cons_of_mem _ hc)]
    simp [ParseTree.isBlank]
  | text ht h ihs => simp [PolyGlot.allBlank, ParseTree.isBlank, ht]
  | null ht h ihs =>
    rw [PolyGlot.allBlank, Bool.and_eq_true, ihs fun c hc => ih c (List.mem_cons_of_mem _ hc)]
    simp [(ih _ (List.mem_cons_self ..) _ _ _ ht).mpr rfl]
  | tree ht h ihs =>
    have hc := ih _ (List.mem_cons_self ..) _ _ _ ht
    simp only [reduceCtorEq, iff_false, Bool.not_eq_true] at hc
    simp [PolyGlot.allBlank, hc]

/-- A translated context is null exactly when it is blank. -/
theorem isBlank_iff_null {t : ParseTree} {id id' : StatementID} {r : Option IR}
    (h : translateNode uninit t id = .ok (r, id')) : t.isBlank = true ↔ r = none := by
  induction t using ParseTree.induction generalizing id id' r with
  | terminal text => simp [translateNode] at h
  | rule ctx cs ih =>
    rw [ParseTree.isBlank]
    cases translateNode_step h with
    | string hs => simp [RuleContext.isLeafLiteral, hs]
    | int hs hi htext => simp [RuleContext.isLeafLiteral, hi]
    | null hs hi htext hitems =>
      have hblank := hitems.allBlank fun c hc _ _ _ => ih c hc
      simp [RuleContext.isLeafLiteral, hs, hi, hblank]
    | fold hs hi hitems hstk hfold =>
      have hblank := hitems.allBlank fun c hc _ _ _ => ih c hc
      simp [RuleContext.isLeafLiteral, hs, hi, hblank, hstk]

/-- Whether a context can be translated, and whether to null, does not depend on
where the counter stands. -/
theorem translateNode_runs {t : ParseTree} {id id' : StatementID} {r : Option IR}
    (h : translateNode uninit t id = .ok (r, id')) (uninit₂ : StatementID → ScopeID) (id₂ : StatementID) :
    ∃ r₂ id₂', translateNode uninit₂ t id₂ = .ok (r₂, id₂') := by
  induction t using ParseTree.induction generalizing id id' r id₂ with
  | terminal text => simp [translateNode] at h
  | rule ctx cs ih =>
    have hchildren : ∀ {stk i i'}, ChildItems uninit cs i stk i' → ∀ i₂,
        ∃ stk₂ i₂', translateChildren uninit₂ cs i₂ = .ok (stk₂, i₂') := by
      intro stk i i' hitems
      clear h
      induction hitems with
      | nil i => exact fun i₂ => ⟨_,_,rfl⟩
      | eof h ihs | text ht h ihs =>
        intro i₂
        obtain ⟨stk₂,i₂',hrun⟩ := ihs (fun c hc => ih c (List.mem_cons_of_mem _ hc)) i₂
        rw [translateChildren, hrun]
        exact ⟨_,_,rfl⟩
      | null ht h ihs | tree ht h ihs =>
        intro i₂
        obtain ⟨r₂,i₂',hc⟩ := ih _ (List.mem_cons_self ..) ht i₂
        obtain ⟨stk₂,i₂'',hrun⟩ := ihs (fun c hc => ih c (List.mem_cons_of_mem _ hc)) i₂'
        simp only [translateChildren, hc, hrun]
        exact ⟨_,_,rfl⟩
    cases translateNode_step h with
    | string hs =>
      simp only [translateNode, hs, if_true]
      exact ⟨_,_,rfl⟩
    | int hs hi htext =>
      simp only [translateNode, hs, hi, htext, Bool.false_eq_true, if_false, if_true]
      exact ⟨_,_,rfl⟩
    | null hs hi htext hitems =>
      obtain ⟨stk₂,i₂',hrun⟩ := hchildren hitems id₂
      have hblank := (hitems.allBlank fun c _ _ _ _ hc => isBlank_iff_null hc).mpr rfl
      have hstk₂ := ((translateChildren_items hrun).allBlank fun c _ _ _ _ hc => isBlank_iff_null hc).mp hblank
      simp only [translateNode, hs, hi, Bool.false_eq_true, if_false, hrun, hstk₂, List.isEmpty_nil, if_true,
        if_pos htext]
      split <;> exact ⟨_,_,rfl⟩
    | fold hs hi hitems hstk hfold =>
      obtain ⟨stk₂,i₂',hrun⟩ := hchildren hitems id₂
      have hne : cs ≠ [] := by
        rintro rfl
        cases hitems
        exact hstk rfl
      have hstk₂ : stk₂ ≠ [] := fun hnil => hstk <|
        (hitems.allBlank fun c _ _ _ _ hc => isBlank_iff_null hc).mp <|
          ((translateChildren_items hrun).allBlank fun c _ _ _ _ hc => isBlank_iff_null hc).mpr hnil
      obtain ⟨t,i₃,hitems₂,_⟩ := foldItems_ok uninit₂ ctx hstk₂ i₂'
      simp only [translateNode, hs, hi, Bool.false_eq_true, if_false, hrun, List.isEmpty_iff, hne, hstk₂,
        hitems₂]
      exact ⟨_,_,rfl⟩

theorem isTranslated_eq {t : ParseTree} {id id' : StatementID} {r : Option IR}
    (h : translateNode uninit t id = .ok (r, id')) : t.isTranslated = r.isSome := by
  obtain ⟨r₂,id₂,hrun⟩ := translateNode_runs h (fun _ => 0) 0
  have hnull : r₂ = none ↔ r = none := (isBlank_iff_null hrun).symm.trans (isBlank_iff_null h)
  rw [ParseTree.isTranslated, hrun]
  cases r₂ <;> cases r <;> simp_all

def IM.labels : IM → List Label
  | .str _ => []
  | .ir t => t.labels

def IM.UnknownsPlain : IM → Prop
  | .str _ => True
  | .ir t => t.UnknownsPlain

theorem labels_toIR (type : IRType) (o : OneIR) (id : StatementID) : (o.toIR uninit type id).labels =
    (if type = kUnknown then [] else [(type, .kDataDefault, .kScopeDefault)]) ++
      o.slots.flatMap IM.labels := by
  rcases o with ⟨p,m,s,l,r⟩
  cases p <;> cases m <;> cases s <;> cases l <;> cases r <;>
    simp [OneIR.toIR, IR.ofOperator, OneIR.slots, IM.labels]

theorem unknownsPlain_toIR {type : IRType} {o : OneIR} {id : StatementID}
    (h : ∀ x ∈ o.slots, x.UnknownsPlain) : (o.toIR uninit type id).UnknownsPlain := by
  rcases o with ⟨p,m,s,l,r⟩
  refine IR.unknownsPlain_node.mpr ⟨fun _ => ⟨rfl,rfl⟩,?_,?_⟩
  · cases l with
    | none => exact IR.unknownsPlain_nil
    | some l => exact h (.ir l) (by simp [OneIR.slots])
  · cases r with
    | none => exact IR.unknownsPlain_nil
    | some r => exact h (.ir r) (by simp [OneIR.slots])

theorem Folded.labels {type : IRType} {id id' : StatementID} {stk : List IM} {t : IR}
    (h : Folded uninit type id stk t id') : t.labels =
      (if type = kUnknown then [] else [(type, .kDataDefault, .kScopeDefault)]) ++ stk.flatMap IM.labels := by
  induction h with
  | last o id => exact labels_toIR type o id
  | more o hstk h ih =>
    rw [ih, List.flatMap_cons, List.flatMap_append]
    simp only [IM.labels, labels_toIR, if_true, List.nil_append]

theorem Folded.unknownsPlain {type : IRType} {id id' : StatementID} {stk : List IM} {t : IR}
    (h : Folded uninit type id stk t id') (hstk : ∀ x ∈ stk, x.UnknownsPlain) : t.UnknownsPlain := by
  induction h with
  | last o id => exact unknownsPlain_toIR hstk
  | more o _ h ih =>
    refine ih fun x hx => ?_
    rcases List.mem_cons.mp hx with rfl | hx
    · exact unknownsPlain_toIR fun x hx => hstk x (List.mem_append_left _ hx)
    · exact hstk x (List.mem_append_right _ hx)

/-- Decorating the node of a rule gives its label the two annotations. -/
theorem labels_decorate (ctx : RuleContext) {t : IR} {n : IRNode} {l r : IR} (ht : t = .node n l r)
    (htype : n.type = ctx.ruleIndex) (hscope : n.scopeType = .kScopeDefault) :
    (decorate ctx t).labels = ctx.label :: (l.labels ++ r.labels) := by
  subst ht
  simp only [decorate, IR.setDataType, IR.setScopeType, IR.modifyRoot, RuleContext.label]
  split
  · simp [htype, ctx.ruleIndex.isLt.ne]
  · rename_i h
    simp only [ne_eq, not_not] at h
    simp [htype, h, hscope, ctx.ruleIndex.isLt.ne]

theorem unknownsPlain_decorate (ctx : RuleContext) {t : IR} {n : IRNode} {l r : IR} (ht : t = .node n l r)
    (htype : n.type = ctx.ruleIndex) (h : t.UnknownsPlain) : (decorate ctx t).UnknownsPlain := by
  subst ht
  have hknown : n.type ≠ kUnknown := htype ▸ ctx.ruleIndex.isLt.ne
  have hkids := (IR.unknownsPlain_node.mp h).2
  simp only [decorate, IR.setDataType, IR.setScopeType, IR.modifyRoot]
  split <;> exact IR.unknownsPlain_node.mpr ⟨fun hu => absurd hu hknown,hkids⟩

structure Labelled (t : ParseTree) (ir : IR) : Prop where
  labels : ir.labels = t.contextLabels RuleContext.isLeafLiteral
  unknowns : ir.UnknownsPlain

theorem contextLabels_blank {t : ParseTree} {id id' : StatementID}
    (h : translateNode uninit t id = .ok (none, id')) : t.contextLabels RuleContext.isLeafLiteral = [] := by
  induction t using ParseTree.induction generalizing id id' with
  | terminal text => rfl
  | rule ctx cs ih =>
    rw [ParseTree.contextLabels, isTranslated_eq h]
    cases translateNode_step h with
    | null hs hi htext hitems =>
      simp only [RuleContext.isLeafLiteral, hs, hi, Option.isSome_none, Bool.or_self, Bool.false_eq_true,
        if_false, List.nil_append]
      clear h htext
      generalize hstk : ([] : List IM) = stk at hitems
      induction hitems with
      | nil id => rfl
      | eof h ihs =>
        rw [contextLabelsAll, ihs (fun c hc => ih c (List.mem_cons_of_mem _ hc)) hstk]
        rfl
      | null ht h ihs =>
        rw [contextLabelsAll, ihs (fun c hc => ih c (List.mem_cons_of_mem _ hc)) hstk,
          ih _ (List.mem_cons_self ..) ht]
        rfl
      | text ht h ihs => cases hstk
      | tree ht h ihs => cases hstk

theorem ChildItems.labels {cs : List ParseTree} {id id' : StatementID} {stk : List IM}
    (h : ChildItems uninit cs id stk id')
    (ih : ∀ c ∈ cs, ∀ i ir i', translateNode uninit c i = .ok (some ir, i') → Labelled c ir) :
    stk.flatMap IM.labels = contextLabelsAll RuleContext.isLeafLiteral cs ∧ ∀ x ∈ stk, x.UnknownsPlain := by
  induction h with
  | nil id => exact ⟨rfl,by simp⟩
  | eof h ihs =>
    obtain ⟨hl,hu⟩ := ihs fun c hc => ih c (List.mem_cons_of_mem _ hc)
    exact ⟨hl,hu⟩
  | text ht h ihs =>
    obtain ⟨hl,hu⟩ := ihs fun c hc => ih c (List.mem_cons_of_mem _ hc)
    exact ⟨hl,List.forall_mem_cons.mpr ⟨trivial,hu⟩⟩
  | null ht h ihs =>
    obtain ⟨hl,hu⟩ := ihs fun c hc => ih c (List.mem_cons_of_mem _ hc)
    refine ⟨?_,hu⟩
    rw [contextLabelsAll, contextLabels_blank ht, hl, List.nil_append]
  | tree ht h ihs =>
    obtain ⟨hl,hu⟩ := ihs fun c hc => ih c (List.mem_cons_of_mem _ hc)
    have htree := ih _ (List.mem_cons_self ..) _ _ _ ht
    refine ⟨?_,List.forall_mem_cons.mpr ⟨htree.unknowns,hu⟩⟩
    rw [List.flatMap_cons, contextLabelsAll, hl, IM.labels, htree.labels]

/-- Translation keeps the labels when a literal is what the translator takes
for one. -/
theorem translateNode_labels {t : ParseTree} {id id' : StatementID} {ir : IR}
    (h : translateNode uninit t id = .ok (some ir, id')) : Labelled t ir := by
  induction t using ParseTree.induction generalizing id id' ir with
  | terminal text => simp [translateNode] at h
  | rule ctx cs ih =>
    have htranslated := isTranslated_eq h
    cases translateNode_step h with
    | string hs =>
      refine ⟨(labels_decorate ctx rfl rfl rfl).trans ?_,unknownsPlain_decorate ctx rfl rfl ?_⟩
      · rw [ParseTree.contextLabels, htranslated]
        simp [RuleContext.isLeafLiteral, hs]
      · exact IR.unknownsPlain_node.mpr ⟨fun _ => ⟨rfl,rfl⟩,IR.unknownsPlain_nil,IR.unknownsPlain_nil⟩
    | int hs hi htext =>
      refine ⟨(labels_decorate ctx rfl rfl rfl).trans ?_,unknownsPlain_decorate ctx rfl rfl ?_⟩
      · rw [ParseTree.contextLabels, htranslated]
        simp [RuleContext.isLeafLiteral, hi]
      · exact IR.unknownsPlain_node.mpr ⟨fun _ => ⟨rfl,rfl⟩,IR.unknownsPlain_nil,IR.unknownsPlain_nil⟩
    | fold hs hi hitems hstk hfold =>
      obtain ⟨hl,hu⟩ := hitems.labels fun c hc _ _ _ => ih c hc
      obtain ⟨n,l,r,hroot,htype,hdata,hscope⟩ := hfold.root
      refine ⟨?_,unknownsPlain_decorate ctx hroot htype (hfold.unknownsPlain hu)⟩
      have hfolded := hfold.labels
      rw [hroot, IR.labels_node, htype, if_neg ctx.ruleIndex.isLt.ne, if_neg ctx.ruleIndex.isLt.ne] at hfolded
      have hkids : IR.labels l ++ IR.labels r = _ := (List.cons.inj hfolded).2
      rw [labels_decorate ctx hroot htype hscope, ParseTree.contextLabels, htranslated, hkids, hl]
      simp [RuleContext.isLeafLiteral, hs, hi]

end

structure Richer (a b : List Label) (bare : Prop) : Prop where
  length : b.length ≤ a.length
  bare : a.length = b.length → bare

theorem Richer.append {a b a' b' : List Label} {p q : Prop} (h : Richer a b p) (h' : Richer a' b' q) :
    Richer (a ++ a') (b ++ b') (p ∧ q) := by
  have hlen := h.length
  have hlen' := h'.length
  constructor <;> simp only [List.length_append]
  · omega
  · exact fun heq => ⟨h.bare (by omega),h'.bare (by omega)⟩

section
variable {uninit : StatementID → ScopeID}

def ParseTree.Runs (uninit : StatementID → ScopeID) (t : ParseTree) : Prop :=
  (∃ text, t = .terminal text) ∨ ∃ id r id', translateNode uninit t id = .ok (r, id')

theorem ChildItems.runs {cs : List ParseTree} {id id' : StatementID} {stk : List IM}
    (h : ChildItems uninit cs id stk id') : ∀ c ∈ cs, c.Runs uninit := by
  induction h with
  | nil id => simp
  | eof h ih | text ht h ih => exact List.forall_mem_cons.mpr ⟨.inl ⟨_,rfl⟩,ih⟩
  | null ht h ih | tree ht h ih => exact List.forall_mem_cons.mpr ⟨.inr ⟨_,_,_,ht⟩,ih⟩

theorem ParseTree.Runs.children {ctx : RuleContext} {cs : List ParseTree}
    (h : (ParseTree.rule ctx cs).Runs uninit) (hleaf : ¬ ctx.isLeafLiteral) : ∀ c ∈ cs, c.Runs uninit := by
  obtain ⟨text,h⟩ | ⟨id,r,id',h⟩ := h
  · cases h
  · cases translateNode_step h with
    | string hs => simp [RuleContext.isLeafLiteral, hs] at hleaf
    | int hs hi htext => simp [RuleContext.isLeafLiteral, hi] at hleaf
    | null hs hi htext hitems => exact hitems.runs
    | fold hs hi hitems hstk hfold => exact hitems.runs

/-- Only a blank context has no label in it. -/
theorem contextLabels_eq_nil_iff {t : ParseTree} (h : t.Runs uninit) :
    t.contextLabels RuleContext.isLeafLiteral = [] ↔ t.isBare := by
  obtain ⟨text,rfl⟩ | ⟨id,r,id',h⟩ := h
  · simp [ParseTree.contextLabels, ParseTree.isBare]
  · cases t with
    | terminal text => simp [translateNode] at h
    | rule ctx cs =>
      rw [ParseTree.isBare, isBlank_iff_null h]
      cases r with
      | none => exact iff_of_true (contextLabels_blank h) rfl
      | some ir => simp [ParseTree.contextLabels, isTranslated_eq h]

theorem contextLabelsAll_eq_nil_iff {cs : List ParseTree} (h : ∀ c ∈ cs, c.Runs uninit) :
    contextLabelsAll RuleContext.isLeafLiteral cs = [] ↔ ∀ c ∈ cs, c.isBare := by
  induction cs with
  | nil => simp [contextLabelsAll]
  | cons c cs ih =>
    obtain ⟨hc,hcs⟩ := List.forall_mem_cons.mp h
    rw [contextLabelsAll, List.append_eq_nil_iff, contextLabels_eq_nil_iff hc, ih hcs, List.forall_mem_cons]

theorem contextLabels_richer {t : ParseTree} (h : t.Runs uninit) :
    Richer (t.contextLabels RuleContext.isLeafLiteral) (t.contextLabels RuleContext.isLiteral) t.FloatsBare := by
  induction t using ParseTree.induction with
  | terminal text => exact ⟨le_rfl,fun _ => trivial⟩
  | rule ctx cs ih =>
    have hself : Richer (if (ParseTree.rule ctx cs).isTranslated then [ctx.label] else [])
        (if (ParseTree.rule ctx cs).isTranslated then [ctx.label] else []) True := ⟨le_rfl,fun _ => trivial⟩
    rw [ParseTree.contextLabels, ParseTree.contextLabels, ParseTree.FloatsBare]
    obtain ⟨hleaf,hlit⟩ | ⟨hleaf,hfloat,hlit⟩ | ⟨hleaf,hfloat,hlit⟩ := ctx.literal_cases
    · rw [if_pos hleaf, if_pos hlit, if_pos hleaf]
      exact ⟨le_rfl,fun _ => trivial⟩
    · rw [if_neg hleaf, if_pos hlit, if_neg hleaf, if_pos hfloat,
        ← contextLabelsAll_eq_nil_iff (h.children hleaf)]
      constructor <;> simp only [List.length_append, List.length_nil]
      · omega
      · exact fun heq => List.length_eq_zero_iff.mp (by omega)
    · have hall : Richer (contextLabelsAll RuleContext.isLeafLiteral cs)
          (contextLabelsAll RuleContext.isLiteral cs) (AllFloatsBare cs) := by
        have hruns := h.children hleaf
        clear h hself
        induction cs with
        | nil => exact ⟨le_rfl,fun _ => trivial⟩
        | cons c cs ihs =>
          obtain ⟨hc,hcs⟩ := List.forall_mem_cons.mp hruns
          exact (ih c (List.mem_cons_self ..) hc).append (ihs (fun d hd => ih d (List.mem_cons_of_mem _ hd)) hcs)
      rw [if_neg hleaf, if_neg hlit, if_neg hleaf, if_neg hfloat]
      have hboth := hself.append hall
      exact ⟨hboth.length,fun heq => (hboth.bare heq).2⟩

theorem contextLabels_eq {t : ParseTree} (hruns : t.Runs uninit) (h : t.FloatsBare) :
    t.contextLabels RuleContext.isLeafLiteral = t.contextLabels RuleContext.isLiteral := by
  induction t using ParseTree.induction with
  | terminal text => rfl
  | rule ctx cs ih =>
    rw [ParseTree.FloatsBare] at h
    rw [ParseTree.contextLabels, ParseTree.contextLabels]
    obtain ⟨hleaf,hlit⟩ | ⟨hleaf,hfloat,hlit⟩ | ⟨hleaf,hfloat,hlit⟩ := ctx.literal_cases
    · rw [if_pos hleaf, if_pos hlit]
    · rw [if_neg hleaf, if_pos hfloat] at h
      rw [if_neg hleaf, if_pos hlit, (contextLabelsAll_eq_nil_iff (hruns.children hleaf)).mpr h]
    · rw [if_neg hleaf, if_neg hfloat] at h
      rw [if_neg hleaf, if_neg hlit]
      congr 1
      have hall := hruns.children hleaf
      clear hruns
      induction cs with
      | nil => rfl
      | cons c cs ihs =>
        obtain ⟨hc,hcs⟩ := List.forall_mem_cons.mp hall
        rw [contextLabelsAll, contextLabelsAll, ih c (List.mem_cons_self ..) hc h.1,
          ihs (fun d hd => ih d (List.mem_cons_of_mem _ hd)) h.2 hcs]

def FoldsToOne (uninit : StatementID → ScopeID) : Prop :=
  ∀ (type : IRType) (stk : List IM) (id : StatementID), stk ≠ [] →
    ∃ t id', ∀ fuel ≥ stk.length, foldLoop uninit type fuel stk id = some ([.ir t], id')

theorem foldLoop_mono {type : IRType} {fuel fuel' : ℕ} {stk : List IM} {id : StatementID}
    {r : List IM × StatementID} (h : foldLoop uninit type fuel stk id = some r) (hle : fuel ≤ fuel') :
    foldLoop uninit type fuel' stk id = some r := by
  induction fuel generalizing fuel' stk id with
  | zero => simp [foldLoop] at h
  | succ fuel ih =>
    obtain ⟨k,rfl⟩ : ∃ k, fuel' = k + 1 := ⟨fuel' - 1,by omega⟩
    simp only [foldLoop] at h ⊢
    split
    · rename_i hlong
      rw [if_pos hlong] at h
      exact ih h (by omega)
    · rename_i hshort
      rwa [if_neg hshort] at h

theorem foldsToOne : FoldsToOne uninit := by
  intro type stk id hstk
  obtain ⟨t,id',hrun,-⟩ := foldLoop_folded uninit type hstk id le_rfl
  exact ⟨t,id',fun fuel hfuel => foldLoop_mono hrun hfuel⟩

/-- A translation carries the labels of its contexts, with every literal as one
leaf, exactly when no float literal has a child context with anything in it. -/
theorem translateNode_labels_iff {t : ParseTree} {id id' : StatementID} {ir : IR}
    (h : translateNode uninit t id = .ok (some ir, id')) :
    (FoldsToOne uninit ∧ ir.labels = t.contextLabels RuleContext.isLiteral ∧ ir.UnknownsPlain) ↔
      t.FloatsBare := by
  have hlabelled := translateNode_labels h
  have hruns : t.Runs uninit := .inr ⟨_,_,_,h⟩
  constructor
  · rintro ⟨-,hlabels,-⟩
    rw [hlabelled.labels] at hlabels
    exact (contextLabels_richer hruns).bare (congrArg List.length hlabels)
  · intro hbare
    exact ⟨foldsToOne,hlabelled.labels.trans (contextLabels_eq hruns hbare),hlabelled.unknowns⟩

theorem plainFloat_labels_iff : ∃ ir id', translateNode id plainFloat 0 = .ok (some ir, id') ∧
    ((FoldsToOne id ∧ ir.labels = plainFloat.contextLabels RuleContext.isLiteral ∧ ir.UnknownsPlain) ↔
      plainFloat.FloatsBare) :=
  ⟨_,_,rfl,translateNode_labels_iff (show translateNode id plainFloat 0 = _ from rfl)⟩

def nestedFloat : ParseTree := .rule { ruleIndex := 0, isFloatLiteral := true }
  [.terminal ['-'], .rule { ruleIndex := 1 } [.terminal ['1', '.', '5']]]

theorem nestedFloat_labels : ¬ ∀ (uninit : StatementID → ScopeID) (t : ParseTree) (id id' : StatementID) (ir : IR),
    translateNode uninit t id = .ok (some ir, id') →
      FoldsToOne uninit ∧ ir.labels = t.contextLabels RuleContext.isLiteral ∧ ir.UnknownsPlain := by
  intro h
  obtain ⟨-,hlabels,-⟩ := h id nestedFloat 0 _ _ rfl
  exact absurd hlabels (by decide)

end

end PolyGlot
