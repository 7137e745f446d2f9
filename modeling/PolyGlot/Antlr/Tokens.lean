import PolyGlot.Antlr.Fold

set_option autoImplicit false

/-! # Translation keeps the tokens

The tokens of a translation are the texts of the terminals of the parse tree,
where a context that the translator treats as a literal counts as one token.
`isFloatLiteral` is declared beside the other two flags and never read, so a
context flagged with it alone is translated like any other context.
-/
namespace PolyGlot

def RuleContext.isLiteral (ctx : RuleContext) : Bool :=
  ctx.isStringLiteral || ctx.isFloatLiteral || ctx.isIntLiteral

def RuleContext.isLeafLiteral (ctx : RuleContext) : Bool := ctx.isStringLiteral || ctx.isIntLiteral

/-- A context is a literal for the translator, a float literal only, or none. -/
theorem RuleContext.literal_cases (ctx : RuleContext) :
    (ctx.isLeafLiteral ∧ ctx.isLiteral) ∨ (¬ ctx.isLeafLiteral ∧ ctx.isFloatLiteral ∧ ctx.isLiteral) ∨
      (¬ ctx.isLeafLiteral ∧ ¬ ctx.isFloatLiteral ∧ ¬ ctx.isLiteral) := by
  simp only [isLeafLiteral, isLiteral]
  grind

mutual
/-- The texts of the terminals in source order, `<EOF>` dropped, a literal
context counting as the single terminal `getText()`. -/
def ParseTree.leafTexts (literal : RuleContext → Bool) : ParseTree → List Str
  | .terminal text => if text = eofText then [] else [text]
  | .rule ctx cs => if literal ctx then [getTexts cs] else leafTextsAll literal cs
def leafTextsAll (literal : RuleContext → Bool) : List ParseTree → List Str
  | [] => []
  | c :: cs => c.leafTexts literal ++ leafTextsAll literal cs
end

mutual
def ParseTree.IntsCanonical : ParseTree → Prop
  | .terminal _ => True
  | .rule ctx cs => (ctx.isIntLiteral → ∃ i, (intMin ≤ i ∧ i ≤ intMax) ∧ getTexts cs = intText i) ∧
      AllIntsCanonical cs
def AllIntsCanonical : List ParseTree → Prop
  | [] => True
  | c :: cs => c.IntsCanonical ∧ AllIntsCanonical cs
end

mutual
/-- Every context flagged `isFloatLiteral` only, unless it lies inside another
literal, has its whole text as its one token. -/
def ParseTree.FloatsPlain : ParseTree → Prop
  | .terminal _ => True
  | .rule ctx cs =>
    if ctx.isLeafLiteral then True
    else if ctx.isFloatLiteral then
      skipEmpty (leafTextsAll RuleContext.isLeafLiteral cs) = skipEmpty [getTexts cs]
    else AllFloatsPlain cs
def AllFloatsPlain : List ParseTree → Prop
  | [] => True
  | c :: cs => c.FloatsPlain ∧ AllFloatsPlain cs
end

theorem AllIntsCanonical.mem {cs : List ParseTree} (h : AllIntsCanonical cs) {c : ParseTree} (hc : c ∈ cs) :
    c.IntsCanonical := by
  induction cs with
  | nil => simp at hc
  | cons d cs ih =>
    rcases List.mem_cons.mp hc with rfl | hc
    · exact h.1
    · exact ih h.2 hc

section
variable {uninit : StatementID → ScopeID}

def IM.tokens : IM → List Str
  | .str s => skipEmpty [s]
  | .ir t => t.tokens

@[simp] theorem tokens_toIR (type : IRType) (o : OneIR) (id : StatementID) :
    (o.toIR uninit type id).tokens = o.slots.flatMap IM.tokens := by
  rcases o with ⟨p,m,s,l,r⟩
  cases p <;> cases m <;> cases s <;> cases l <;> cases r <;>
    simp [OneIR.toIR, IR.ofOperator, IR.tokens, IRNode.containData, IR.opTokens, OneIR.slots, IM.tokens]

theorem Folded.tokens {type : IRType} {id id' : StatementID} {stk : List IM} {t : IR}
    (h : Folded uninit type id stk t id') : t.tokens = stk.flatMap IM.tokens := by
  induction h with
  | last o id => exact tokens_toIR type o id
  | more o hstk h ih =>
    rw [ih, List.flatMap_cons, List.flatMap_append]
    exact congrArg (· ++ _) (tokens_toIR kUnknown o _)

theorem tokens_modifyRoot (f : IRNode → IRNode) (hop : ∀ n, (f n).op = n.op)
    (hdata : ∀ n, (f n).data = n.data) (t : IR) : IR.tokens (t.modifyRoot f) = t.tokens := by
  cases t with
  | nil => rfl
  | node n l r =>
    have hcontain : (f n).containData = n.containData := by simp only [IRNode.containData, hdata]
    simp only [IR.modifyRoot, IR.tokens, hop, hdata, hcontain]

@[simp] theorem tokens_decorate (ctx : RuleContext) (t : IR) : (decorate ctx t).tokens = t.tokens := by
  have hdata : ∀ (d : DataType) (u : IR), IR.tokens (u.setDataType d) = u.tokens := fun d =>
    tokens_modifyRoot ({ · with dataType := d }) (fun _ => rfl) (fun _ => rfl)
  have hscope : ∀ (s : ScopeType) (u : IR), IR.tokens (u.setScopeType s) = u.tokens := fun s =>
    tokens_modifyRoot ({ · with scopeType := s }) (fun _ => rfl) (fun _ => rfl)
  simp only [decorate]
  split
  · rw [hscope, hdata]
  · exact hdata _ t

def tokensOf : Option IR → List Str
  | none => []
  | some t => t.tokens

theorem ChildItems.tokens {cs : List ParseTree} {id id' : StatementID} {stk : List IM}
    (h : ChildItems uninit cs id stk id')
    (ih : ∀ c ∈ cs, ∀ i r i', translateNode uninit c i = .ok (r, i') →
      tokensOf r = skipEmpty (c.leafTexts RuleContext.isLeafLiteral)) :
    stk.flatMap IM.tokens = skipEmpty (leafTextsAll RuleContext.isLeafLiteral cs) := by
  induction h with
  | nil id => rfl
  | eof h ihs =>
    rw [leafTextsAll, skipEmpty_append, ← ihs (fun c hc => ih c (List.mem_cons_of_mem _ hc))]
    rfl
  | @text s cs id id' stk ht h ihs =>
    rw [List.flatMap_cons, leafTextsAll, skipEmpty_append, ihs (fun c hc => ih c (List.mem_cons_of_mem _ hc))]
    simp only [IM.tokens, ParseTree.leafTexts, if_neg ht]
  | null ht h ihs =>
    have hnull := ih _ (List.mem_cons_self ..) _ _ _ ht
    rw [leafTextsAll, skipEmpty_append, ← hnull, ihs (fun c hc => ih c (List.mem_cons_of_mem _ hc))]
    rfl
  | tree ht h ihs =>
    have htree := ih _ (List.mem_cons_self ..) _ _ _ ht
    rw [List.flatMap_cons, leafTextsAll, skipEmpty_append, ← htree,
      ihs (fun c hc => ih c (List.mem_cons_of_mem _ hc))]
    rfl

/-- Translation keeps every token in its place when a literal is what the
translator takes for one. -/
theorem translateNode_tokens {t : ParseTree} (hints : t.IntsCanonical) {id id' : StatementID} {r : Option IR}
    (h : translateNode uninit t id = .ok (r, id')) :
    tokensOf r = skipEmpty (t.leafTexts RuleContext.isLeafLiteral) := by
  induction t using ParseTree.induction generalizing id id' r with
  | terminal text => simp [translateNode] at h
  | rule ctx cs ih =>
    have hkids : ∀ c ∈ cs, ∀ i r i', translateNode uninit c i = .ok (r, i') →
        tokensOf r = skipEmpty (c.leafTexts RuleContext.isLeafLiteral) :=
      fun c hc i r i' hrun => ih c hc (hints.2.mem hc) hrun
    cases translateNode_step h with
    | string hs =>
      simp [tokensOf, IR.ofData, IR.tokens, IRNode.containData, IR.dataText, ParseTree.leafTexts,
        RuleContext.isLeafLiteral, hs]
    | int hs hi htext =>
      obtain ⟨j,hj,hcanon⟩ := hints.1 hi
      rw [hcanon, stoi_intText hj, Option.some.injEq] at htext
      subst htext
      simp [tokensOf, IR.ofData, IR.tokens, IRNode.containData, IR.dataText, ParseTree.leafTexts,
        RuleContext.isLeafLiteral, hs, hi, hcanon]
    | null hs hi htext hitems =>
      have hnone := hitems.tokens hkids
      simpa [tokensOf, ParseTree.leafTexts, RuleContext.isLeafLiteral, hs, hi] using hnone
    | fold hs hi hitems hstk hfold =>
      rw [tokensOf, tokens_decorate, hfold.tokens, hitems.tokens hkids]
      simp [ParseTree.leafTexts, RuleContext.isLeafLiteral, hs, hi]

end

structure Finer (a b : List Str) (plain : Prop) : Prop where
  chars : a.flatten.length ≤ b.flatten.length
  tokens : a.flatten.length = b.flatten.length → b.length ≤ a.length
  plain : a.flatten.length = b.flatten.length → a.length = b.length → plain

theorem Finer.refl (a : List Str) {plain : Prop} (h : plain) : Finer a a plain :=
  ⟨le_rfl,fun _ => le_rfl,fun _ _ => h⟩

theorem Finer.append {a b a' b' : List Str} {p q : Prop} (h : Finer a b p) (h' : Finer a' b' q) :
    Finer (a ++ a') (b ++ b') (p ∧ q) := by
  have hchars := h.chars
  have hchars' := h'.chars
  constructor <;> simp only [List.flatten_append, List.length_append]
  · omega
  · intro heq
    have htokens := h.tokens (by omega)
    have htokens' := h'.tokens (by omega)
    omega
  · intro heq hlen
    have htokens := h.tokens (by omega)
    have htokens' := h'.tokens (by omega)
    exact ⟨h.plain (by omega) (by omega),h'.plain (by omega) (by omega)⟩

theorem flatten_skipEmpty (l : List Str) : (skipEmpty l).flatten = l.flatten := by
  induction l with
  | nil => rfl
  | cons s l ih => cases s <;> simp_all [skipEmpty]

theorem leafTexts_sublist (literal : RuleContext → Bool) (t : ParseTree) :
    (t.leafTexts literal).flatten.Sublist t.getText := by
  induction t using ParseTree.induction with
  | terminal text =>
    rw [ParseTree.leafTexts]
    split <;> simp [ParseTree.getText]
  | rule ctx cs ih =>
    rw [ParseTree.leafTexts]
    split
    · simp [ParseTree.getText]
    · rw [ParseTree.getText]
      induction cs with
      | nil => simp [leafTextsAll]
      | cons c cs ihs =>
        rw [leafTextsAll, getTexts, List.flatten_append]
        exact (ih c (List.mem_cons_self ..)).append (ihs fun d hd => ih d (List.mem_cons_of_mem _ hd))

/-- A sequence whose characters are those of one text is finer than that text. -/
theorem Finer.ofText {l : List Str} {s : Str} (hl : l.flatten.Sublist s) :
    Finer (skipEmpty l) (skipEmpty [s]) (skipEmpty l = skipEmpty [s]) := by
  have hchars : ∀ m : List Str, (skipEmpty m).flatten.length = m.flatten.length := fun m => by
    rw [flatten_skipEmpty]
  have hwhole : [s].flatten = s := by simp
  have hne : ∀ u ∈ skipEmpty l, u ≠ [] := fun u hu => by simpa using (List.mem_filter.mp hu).2
  constructor <;> rw [hchars, hchars, hwhole]
  · exact hl.length_le
  · intro heq
    cases hs : s with
    | nil => simp
    | cons c cs =>
      have hpos : skipEmpty l ≠ [] := fun hnil => by
        have hflat := hchars l
        rw [hnil, heq, hs] at hflat
        simp at hflat
      have h1 := List.length_pos_of_ne_nil hpos
      have h2 : (skipEmpty [c :: cs]).length = 1 := rfl
      omega
  · intro heq hlen
    have hflat := hl.eq_of_length heq
    cases hs : s with
    | nil =>
      rw [hs] at hlen
      exact List.length_eq_zero_iff.mp hlen
    | cons c cs =>
      rw [hs] at hlen
      obtain ⟨u,hu⟩ := List.length_eq_one_iff.mp hlen
      have hsingle := flatten_skipEmpty l
      rw [hu, hflat, hs] at hsingle
      rw [hu, show u = c :: cs by simpa using hsingle]
      rfl

theorem leafTexts_finer (t : ParseTree) : Finer (skipEmpty (t.leafTexts RuleContext.isLeafLiteral))
    (skipEmpty (t.leafTexts RuleContext.isLiteral)) t.FloatsPlain := by
  induction t using ParseTree.induction with
  | terminal text => exact .refl _ trivial
  | rule ctx cs ih =>
    rw [ParseTree.leafTexts, ParseTree.leafTexts, ParseTree.FloatsPlain]
    obtain ⟨hleaf,hlit⟩ | ⟨hleaf,hfloat,hlit⟩ | ⟨hleaf,hfloat,hlit⟩ := ctx.literal_cases
    · rw [if_pos hleaf, if_pos hlit, if_pos hleaf]
      exact .refl _ trivial
    · rw [if_neg hleaf, if_pos hlit, if_neg hleaf, if_pos hfloat]
      have hsub := leafTexts_sublist RuleContext.isLeafLiteral (.rule ctx cs)
      rw [ParseTree.leafTexts, if_neg hleaf] at hsub
      exact Finer.ofText hsub
    · rw [if_neg hleaf, if_neg hlit, if_neg hleaf, if_neg hfloat]
      induction cs with
      | nil => exact .refl _ trivial
      | cons c cs ihs =>
        rw [leafTextsAll, leafTextsAll, skipEmpty_append, skipEmpty_append]
        exact (ih c (List.mem_cons_self ..)).append (ihs fun d hd => ih d (List.mem_cons_of_mem _ hd))

theorem leafTexts_eq {t : ParseTree} (h : t.FloatsPlain) :
    skipEmpty (t.leafTexts RuleContext.isLeafLiteral) = skipEmpty (t.leafTexts RuleContext.isLiteral) := by
  induction t using ParseTree.induction with
  | terminal text => rfl
  | rule ctx cs ih =>
    rw [ParseTree.FloatsPlain] at h
    rw [ParseTree.leafTexts, ParseTree.leafTexts]
    obtain ⟨hleaf,hlit⟩ | ⟨hleaf,hfloat,hlit⟩ | ⟨hleaf,hfloat,hlit⟩ := ctx.literal_cases
    · rw [if_pos hleaf, if_pos hlit]
    · rw [if_neg hleaf, if_pos hfloat] at h
      rw [if_neg hleaf, if_pos hlit, h]
    · rw [if_neg hleaf, if_neg hfloat] at h
      rw [if_neg hleaf, if_neg hlit]
      induction cs with
      | nil => rfl
      | cons c cs ihs =>
        rw [leafTextsAll, leafTextsAll, skipEmpty_append, skipEmpty_append, ih c (List.mem_cons_self ..) h.1,
          ihs (fun d hd => ih d (List.mem_cons_of_mem _ hd)) h.2]

/-- The two readings of a tree give the same tokens exactly when every float
literal is a single token. -/
theorem leafTexts_eq_iff (t : ParseTree) :
    skipEmpty (t.leafTexts RuleContext.isLeafLiteral) = skipEmpty (t.leafTexts RuleContext.isLiteral) ↔
      t.FloatsPlain := by
  constructor
  · intro h
    exact (leafTexts_finer t).plain (by rw [h]) (by rw [h])
  · exact leafTexts_eq

/-- A translation has the tokens of its tree, with every literal as one token,
exactly when the float literals of the tree are single tokens. -/
theorem translateNode_tokens_iff {uninit : StatementID → ScopeID} {t : ParseTree} (hints : t.IntsCanonical)
    {id id' : StatementID} {ir : IR} (h : translateNode uninit t id = .ok (some ir, id')) :
    ir.tokens = skipEmpty (t.leafTexts RuleContext.isLiteral) ↔ t.FloatsPlain := by
  rw [← leafTexts_eq_iff, ← translateNode_tokens hints h]
  rfl

def plainFloat : ParseTree :=
  .rule { ruleIndex := 0 } [.terminal ['x'], .terminal ['='],
    .rule { ruleIndex := 1, isFloatLiteral := true } [.terminal ['1', '.', '5']], .terminal eofText]

theorem plainFloat_tokens_iff : ∃ ir id', translateNode id plainFloat 0 = .ok (some ir, id') ∧
    (ir.tokens = skipEmpty (plainFloat.leafTexts RuleContext.isLiteral) ↔ plainFloat.FloatsPlain) :=
  ⟨_,_,rfl,translateNode_tokens_iff (t := plainFloat)
    (by simp [plainFloat, ParseTree.IntsCanonical, AllIntsCanonical]) rfl⟩

def splitFloat : ParseTree :=
  .rule { ruleIndex := 0, isFloatLiteral := true } [.terminal ['1'], .terminal ['.'], .terminal ['5']]

theorem splitFloat_tokens : ¬ ∀ (uninit : StatementID → ScopeID) (t : ParseTree) (id id' : StatementID) (ir : IR),
    t.IntsCanonical → translateNode uninit t id = .ok (some ir, id') →
      ir.tokens = skipEmpty (t.leafTexts RuleContext.isLiteral) := by
  intro h
  have hfloat := h id splitFloat 0 _ _ (by simp [splitFloat, ParseTree.IntsCanonical, AllIntsCanonical]) rfl
  exact absurd hfloat (by decide)

end PolyGlot
