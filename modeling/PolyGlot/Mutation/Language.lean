import PolyGlot.Antlr.Tokens
import PolyGlot.Mutation.StatementIds
import PolyGlot.Support.Grammar

set_option autoImplicit false

/-! # Mutants and the language of the grammar

A node with a rule's type stands for one alternative of the rule, whose symbols
are read off the node and the `kUnknown` nodes below it. A mutant keeps this
unless `strategy_replace_with_constraint` puts the last fold of one alternative
on the first folds of another: both have a `kUnknown` left child.
-/
namespace PolyGlot

open BinaryTree TreeHeap Prog Cfg

abbrev RuleSymbol := GrammarSymbol Str (Fin kUnknown)

abbrev RuleGrammar := Grammar Str (Fin kUnknown)

def terminalTokens (text : Str) : List Str := if text = eofText then [] else skipEmpty [text]

mutual
inductive Parses (G : RuleGrammar) : Fin kUnknown → ParseTree → Prop
  | node {r : Fin kUnknown} {alt : List RuleSymbol} {cs : List ParseTree} (halt : alt ∈ G r)
      (hcs : ParsesAll G alt cs) : Parses G r (.rule { ruleIndex := r } cs)
inductive ParsesAll (G : RuleGrammar) : List RuleSymbol → List ParseTree → Prop
  | nil : ParsesAll G [] []
  | terminal (text : Str) {alt : List RuleSymbol} {cs : List ParseTree} (hcs : ParsesAll G alt cs) :
      ParsesAll G (.terminal text :: alt) (.terminal text :: cs)
  | rule {r : Fin kUnknown} {t : ParseTree} {alt : List RuleSymbol} {cs : List ParseTree} (ht : Parses G r t)
      (hcs : ParsesAll G alt cs) : ParsesAll G (.rule r :: alt) (t :: cs)
end

def ParseTree.yield (t : ParseTree) : List Str := skipEmpty (t.leafTexts fun _ => false)

def InLanguage (G : RuleGrammar) (r : Fin kUnknown) (w : List Str) : Prop := ∃ t, Parses G r t ∧ t.yield = w

abbrev SpellsOf (G : RuleGrammar) : List RuleSymbol → List Str → Prop := Spells G terminalTokens

section
variable {G : RuleGrammar}

theorem skipEmpty_terminal (text : Str) : skipEmpty (if text = eofText then [] else [text]) = terminalTokens text := by
  rw [terminalTokens]
  split <;> rfl

/-- Reading a parse tree without annotations. -/
theorem Parses.spells {r : Fin kUnknown} {t : ParseTree} (h : Parses G r t) : SpellsOf G [.rule r] t.yield := by
  induction t using ParseTree.induction generalizing r with
  | terminal text => cases h
  | rule ctx cs ih =>
    cases h with
    | @node _ alt _ halt hcs =>
      refine spells_rule.mpr ⟨alt,halt,?_⟩
      simp only [ParseTree.yield, ParseTree.leafTexts, Bool.false_eq_true, if_false]
      clear halt
      induction cs generalizing alt with
      | nil =>
        cases hcs
        exact .nil
      | cons c cs ihs =>
        rw [leafTextsAll, skipEmpty_append]
        cases hcs with
        | terminal text hcs =>
          rw [ParseTree.leafTexts, skipEmpty_terminal]
          exact .terminal text (ihs (fun c hc => ih c (List.mem_cons_of_mem _ hc)) hcs)
        | rule ht hcs =>
          exact (ih c List.mem_cons_self ht).append (ihs (fun c hc => ih c (List.mem_cons_of_mem _ hc)) hcs)

theorem Spells.parses {syms : List RuleSymbol} {w : List Str} (h : SpellsOf G syms w) :
    ∃ cs, ParsesAll G syms cs ∧ skipEmpty (leafTextsAll (fun _ => false) cs) = w := by
  induction h with
  | nil => exact ⟨[],.nil,rfl⟩
  | terminal text h ih =>
    obtain ⟨cs,hcs,rfl⟩ := ih
    refine ⟨_,.terminal text hcs,?_⟩
    rw [leafTextsAll, skipEmpty_append, ParseTree.leafTexts, skipEmpty_terminal]
  | rule halt hv h ihv ih =>
    obtain ⟨ds,hds,rfl⟩ := ihv
    obtain ⟨cs,hcs,rfl⟩ := ih
    refine ⟨_,.rule (.node halt hds) hcs,?_⟩
    rw [leafTextsAll, skipEmpty_append]
    simp [ParseTree.leafTexts]

theorem inLanguage_iff {r : Fin kUnknown} {w : List Str} : InLanguage G r w ↔ SpellsOf G [.rule r] w := by
  constructor
  · rintro ⟨t,ht,rfl⟩
    exact ht.spells
  · intro h
    obtain ⟨cs,hcs,rfl⟩ := Spells.parses h
    cases hcs with
    | @rule _ t _ _ ht hnil =>
      cases hnil
      refine ⟨t,ht,?_⟩
      simp [ParseTree.yield, leafTextsAll]

def opSymbols (o : Option IROperator) (field : IROperator → Str) : List RuleSymbol :=
  match o with
  | none => []
  | some op => if field op = [] then [] else [.terminal (field op)]

def frameSymbols (n : IRNode) (l r : List RuleSymbol) : List RuleSymbol :=
  opSymbols n.op IROperator.opPrefix ++ l ++ opSymbols n.op IROperator.opMiddle ++ r ++
    opSymbols n.op IROperator.opSuffix

def symbols : IR → List RuleSymbol
  | .nil => []
  | .node n l r => if h : n.type < kUnknown then [.rule ⟨n.type,h⟩] else frameSymbols n (symbols l) (symbols r)

structure NodePlain (n : IRNode) : Prop where
  type : n.type ≤ kUnknown
  data : n.data = .monostate
  dataType : n.dataType = .kDataDefault
  op : ∀ op, n.op = some op → op.opPrefix ≠ eofText ∧ op.opMiddle ≠ eofText ∧ op.opSuffix ≠ eofText

def FromAlternative (G : RuleGrammar) (n : IRNode) (syms : List RuleSymbol) : Prop :=
  ∀ h : n.type < kUnknown, ∃ alt ∈ G ⟨n.type,h⟩, Reduces G terminalTokens alt syms

def Fits (G : RuleGrammar) : IR → Prop
  | .nil => True
  | .node n l r =>
    (NodePlain n ∧ FromAlternative G n (frameSymbols n (symbols l) (symbols r))) ∧ Fits G l ∧ Fits G r

theorem Fits.child {t : IR} (h : Fits G t) (sd : Side) : Fits G (t.child sd) := by
  cases t with
  | nil =>
    rw [child_nil]
    trivial
  | node n l r => cases sd with
    | left => exact h.2.1
    | right => exact h.2.2

theorem Fits.subtreeAt {t : IR} (h : Fits G t) (p : Path) : Fits G (t.subtreeAt p) := by
  induction p generalizing t with
  | nil => exact h
  | cons sd p ih => exact ih (h.child sd)

def frameTokens (n : IRNode) (l r : List Str) : List Str :=
  IR.opTokens n.op IROperator.opPrefix ++ l ++ IR.opTokens n.op IROperator.opMiddle ++ r ++
    IR.opTokens n.op IROperator.opSuffix

theorem tokens_node {n : IRNode} (hn : n.data = .monostate) (l r : IR) :
    IR.tokens (.node n l r) = frameTokens n l.tokens r.tokens := by
  simp [IR.tokens, IRNode.containData, hn, frameTokens]

theorem spells_opSymbols {o : Option IROperator} {field : IROperator → Str}
    (h : ∀ op, o = some op → field op ≠ eofText) : SpellsOf G (opSymbols o field) (IR.opTokens o field) := by
  cases o with
  | none => exact .nil
  | some op =>
    rw [opSymbols, IR.opTokens]
    split
    · rename_i hempty
      rw [hempty]
      exact .nil
    · have hterminal : SpellsOf G [.terminal (field op)] (terminalTokens (field op)) := spells_terminal _
      rwa [terminalTokens, if_neg (h op rfl)] at hterminal

/-- A node spells its tokens, whatever its children spell. -/
theorem spells_node {n : IRNode} {l r : IR} (hn : NodePlain n)
    (halt : FromAlternative G n (frameSymbols n (symbols l) (symbols r))) {lt rt : List Str}
    (hl : SpellsOf G (symbols l) lt) (hr : SpellsOf G (symbols r) rt) :
    SpellsOf G (symbols (.node n l r)) (frameTokens n lt rt) := by
  have hframe : SpellsOf G (frameSymbols n (symbols l) (symbols r)) (frameTokens n lt rt) := by
    have hpre := spells_opSymbols (G := G) fun op h => (hn.op op h).1
    have hmid := spells_opSymbols (G := G) fun op h => (hn.op op h).2.1
    have hsuf := spells_opSymbols (G := G) fun op h => (hn.op op h).2.2
    exact (((hpre.append hl).append hmid).append hr).append hsuf
  rw [symbols]
  split
  · obtain ⟨alt,hmem,hred⟩ := halt ‹_›
    exact spells_rule.mpr ⟨alt,hmem,hred.spells hframe⟩
  · exact hframe

theorem Fits.spells {t : IR} (h : Fits G t) : SpellsOf G (symbols t) t.tokens := by
  induction t with
  | nil => exact .nil
  | node n l r ihl ihr =>
    obtain ⟨⟨hn,halt⟩,hl,hr⟩ := h
    rw [tokens_node hn.data]
    exact spells_node hn halt (ihl hl) (ihr hr)

/-- A subtree may be exchanged for a tree that spells the same symbols. -/
theorem Fits.spells_replaceAt {t u : IR} (h : Fits G t) {p : Path} (hp : t.subtreeAt p ≠ .nil)
    (hu : SpellsOf G (symbols (t.subtreeAt p)) u.tokens) :
    SpellsOf G (symbols t) (IR.tokens (t.replaceAt p u)) := by
  induction p generalizing t with
  | nil => exact hu
  | cons sd p ih =>
    cases t with
    | nil => exact absurd (subtreeAt_nil _) hp
    | node n l r =>
      obtain ⟨⟨hn,halt⟩,hl,hr⟩ := h
      cases sd
      · rw [replaceAt_cons, setChild, tokens_node hn.data]
        exact spells_node hn halt (ih hl hp hu) hr.spells
      · rw [replaceAt_cons, setChild, tokens_node hn.data]
        exact spells_node hn halt hl.spells (ih hr hp hu)

def itemSymbols : IM → List RuleSymbol
  | .str s => if s = [] then [] else [.terminal s]
  | .ir t => symbols t

def ItemFits (G : RuleGrammar) : IM → Prop
  | .str s => s ≠ eofText
  | .ir t => Fits G t

section
variable {uninit : StatementID → ScopeID}

theorem frameSymbols_toIR (o : OneIR) {type : IRType} (htype : type ≤ kUnknown) (id : StatementID) :
    ∃ n, o.toIR uninit type id = .node n (o.left.getD .nil) (o.right.getD .nil) ∧ n.type = type ∧
      frameSymbols n (symbols (o.left.getD .nil)) (symbols (o.right.getD .nil)) = o.slots.flatMap itemSymbols ∧
      ((∀ a ∈ o.slots, ItemFits G a) → NodePlain n ∧ Fits G (o.left.getD .nil) ∧ Fits G (o.right.getD .nil)) := by
  refine ⟨_,rfl,rfl,?_,fun h => ⟨⟨htype,rfl,rfl,?_⟩,?_,?_⟩⟩
  · rcases o with ⟨p,m,s,l,r⟩
    cases p <;> cases m <;> cases s <;> cases l <;> cases r <;>
      simp [frameSymbols, opSymbols, OneIR.slots, itemSymbols, symbols]
  · have hget : ∀ f : Option Str, (∀ s, f = some s → s ≠ eofText) → f.getD [] ≠ eofText := by
      intro f hf
      cases f with
      | none => simp [eofText]
      | some s => exact hf s rfl
    intro op hop
    cases hop
    refine ⟨hget _ fun s hs => ?_,hget _ fun s hs => ?_,hget _ fun s hs => ?_⟩ <;>
      exact h (.str s) (by simp [OneIR.slots, hs])
  · cases hl : o.left with
    | none => trivial
    | some t => exact h (.ir t) (by simp [OneIR.slots, hl])
  · cases hr : o.right with
    | none => trivial
    | some t => exact h (.ir t) (by simp [OneIR.slots, hr])

/-- A folded node spreads out into the entries it was folded from. -/
theorem Folded.symbols {type : IRType} {id id' : StatementID} {stk : List IM} {t : IR}
    (h : Folded uninit type id stk t id') (hle : type ≤ kUnknown) (hstk : ∀ a ∈ stk, ItemFits G a) :
    ∃ n l r, t = .node n l r ∧ n.type = type ∧
      frameSymbols n (symbols l) (symbols r) = stk.flatMap itemSymbols ∧ NodePlain n ∧ Fits G l ∧ Fits G r := by
  induction h with
  | last o id =>
    obtain ⟨n,hn,htype,hframe,hfits⟩ := frameSymbols_toIR (G := G) o hle id
    exact ⟨n,_,_,hn,htype,hframe,hfits hstk⟩
  | @more o id id' stk t hne h ih =>
    obtain ⟨n,hn,htype,hframe,hfits⟩ := frameSymbols_toIR (G := G) o (le_refl kUnknown) id
    obtain ⟨hplain,hl,hr⟩ := hfits fun a ha => hstk a (List.mem_append_left _ ha)
    have hunknown : ¬ n.type < kUnknown := by rw [htype]; exact lt_irrefl _
    have hfit : Fits G (o.toIR uninit kUnknown id) := by
      rw [hn]
      exact ⟨⟨hplain,fun h => absurd h hunknown⟩,hl,hr⟩
    have hsymbols : PolyGlot.symbols (o.toIR uninit kUnknown id) = o.slots.flatMap itemSymbols := by
      rw [hn, PolyGlot.symbols, dif_neg hunknown, hframe]
    obtain ⟨n',l,r,ht,htype',hframe',hrest⟩ := ih fun a ha => by
      rcases List.mem_cons.mp ha with rfl | ha
      · exact hfit
      · exact hstk a (List.mem_append_right _ ha)
    refine ⟨n',l,r,ht,htype',?_,hrest⟩
    rw [hframe', List.flatMap_cons, List.flatMap_append, ← hsymbols]
    rfl

def TranslationFits (G : RuleGrammar) (r : Fin kUnknown) : Option IR → Prop
  | none => SpellsOf G [.rule r] []
  | some t => Fits G t ∧ symbols t = [.rule r]

theorem ChildItems.reduces {cs : List ParseTree} {id id' : StatementID} {stk : List IM}
    (h : ChildItems uninit cs id stk id') {alt : List RuleSymbol} (hcs : ParsesAll G alt cs)
    (ih : ∀ c ∈ cs, ∀ r, Parses G r c → ∀ i t i', translateNode uninit c i = .ok (t, i') → TranslationFits G r t) :
    Reduces G terminalTokens alt (stk.flatMap itemSymbols) ∧ ∀ a ∈ stk, ItemFits G a := by
  induction h generalizing alt with
  | nil id =>
    cases hcs
    exact ⟨.nil,by simp⟩
  | eof h ihs =>
    cases hcs with
    | terminal _ hcs =>
      obtain ⟨hred,hfits⟩ := ihs hcs fun c hc => ih c (List.mem_cons_of_mem _ hc)
      exact ⟨.drop (spells_terminal eofText) hred,hfits⟩
    | rule ht => cases ht
  | @text s cs id id' stk hs h ihs =>
    cases hcs with
    | terminal _ hcs =>
      obtain ⟨hred,hfits⟩ := ihs hcs fun c hc => ih c (List.mem_cons_of_mem _ hc)
      refine ⟨?_,fun a ha => (List.mem_cons.mp ha).elim (fun h => h ▸ hs) (hfits a)⟩
      rw [List.flatMap_cons, itemSymbols]
      split
      · rename_i hempty
        subst hempty
        exact .drop (spells_terminal []) hred
      · exact .keep _ hred
    | rule ht => cases ht
  | null ht h ihs =>
    cases hcs with
    | rule hparse hcs =>
      obtain ⟨hred,hfits⟩ := ihs hcs fun c hc => ih c (List.mem_cons_of_mem _ hc)
      exact ⟨.drop (ih _ List.mem_cons_self _ hparse _ _ _ ht) hred,hfits⟩
  | tree ht h ihs =>
    cases hcs with
    | rule hparse hcs =>
      obtain ⟨hred,hfits⟩ := ihs hcs fun c hc => ih c (List.mem_cons_of_mem _ hc)
      obtain ⟨hfit,hsym⟩ := ih _ List.mem_cons_self _ hparse _ _ _ ht
      refine ⟨?_,fun a ha => (List.mem_cons.mp ha).elim (fun h => h ▸ hfit) (hfits a)⟩
      rw [List.flatMap_cons, itemSymbols, hsym]
      exact .keep _ hred

theorem Parses.intsCanonical {r : Fin kUnknown} {t : ParseTree} (h : Parses G r t) : t.IntsCanonical := by
  induction t using ParseTree.induction generalizing r with
  | terminal text => trivial
  | rule ctx cs ih =>
    cases h with
    | @node _ alt _ halt hcs =>
      refine ⟨fun h => absurd h Bool.false_ne_true,?_⟩
      clear halt
      induction cs generalizing alt with
      | nil => trivial
      | cons c cs ihs =>
        cases hcs with
        | terminal text hcs => exact ⟨trivial,ihs (fun c hc => ih c (List.mem_cons_of_mem _ hc)) hcs⟩
        | rule ht hcs =>
          exact ⟨ih c List.mem_cons_self ht,ihs (fun c hc => ih c (List.mem_cons_of_mem _ hc)) hcs⟩

/-- No context of a parse tree is a literal. -/
theorem Parses.leafTexts {r : Fin kUnknown} {t : ParseTree} (h : Parses G r t) :
    t.leafTexts RuleContext.isLeafLiteral = t.leafTexts fun _ => false := by
  induction t using ParseTree.induction generalizing r with
  | terminal text => rfl
  | rule ctx cs ih =>
    cases h with
    | @node _ alt _ halt hcs =>
      simp only [ParseTree.leafTexts, RuleContext.isLeafLiteral, Bool.or_self, Bool.false_eq_true, if_false]
      clear halt
      induction cs generalizing alt with
      | nil => rfl
      | cons c cs ihs =>
        rw [leafTextsAll, leafTextsAll]
        cases hcs with
        | terminal text hcs => rw [ihs (fun c hc => ih c (List.mem_cons_of_mem _ hc)) hcs]; rfl
        | rule ht hcs =>
          rw [ih c List.mem_cons_self ht, ihs (fun c hc => ih c (List.mem_cons_of_mem _ hc)) hcs]

theorem translateNode_fits {r : Fin kUnknown} {t : ParseTree} (h : Parses G r t) {id id' : StatementID}
    {ir : Option IR} (hrun : translateNode uninit t id = .ok (ir, id')) : TranslationFits G r ir := by
  induction t using ParseTree.induction generalizing r id id' ir with
  | terminal text => cases h
  | rule ctx cs ih =>
    have htokens := translateNode_tokens h.intsCanonical hrun
    rw [h.leafTexts] at htokens
    have hspells := h.spells
    cases h with
    | @node _ alt _ halt hcs =>
      cases translateNode_step hrun with
      | string hs => cases hs
      | int hs hi => cases hi
      | null hs hi htext hitems =>
        rw [ParseTree.yield, ← htokens] at hspells
        exact hspells
      | fold hs hi hitems hstk hfold =>
        obtain ⟨hred,hfits⟩ := hitems.reduces hcs fun c hc r hc' i t i' hrun => ih c hc hc' hrun
        obtain ⟨n,l,r',rfl,htype,hframe,hplain,hl,hr⟩ := hfold.symbols r.isLt.le hfits
        have hlt : n.type < kUnknown := by
          rw [htype]
          exact r.isLt
        have hdecorate : decorate { ruleIndex := r } (.node n l r') = .node n l r' := by
          have hn := hplain.dataType
          rcases n
          cases hn
          rfl
        rw [hdecorate]
        refine ⟨⟨⟨hplain,fun h => ⟨alt,?_,?_⟩⟩,hl,hr⟩,?_⟩
        · have hr : (⟨n.type,h⟩ : Fin kUnknown) = r := Fin.ext htype
          rwa [hr]
        · rwa [hframe]
        · rw [symbols, dif_pos hlt]
          exact congrArg (fun k => [GrammarSymbol.rule k]) (Fin.ext htype)

theorem extractStructure_plain {t : IR} (h : Fits G t) (id : StatementID) : extractStructure uninit t id = (t, id) := by
  induction t generalizing id with
  | nil => rfl
  | node n l r ihl ihr =>
    obtain ⟨⟨hn,-⟩,hl,hr⟩ := h
    have hdata : ∀ {u : IR}, Fits G u → IR.dataType? u ≠ some DataType.kFixUnit := by
      intro u hu
      cases u with
      | nil => simp [IR.dataType?]
      | node m ul ur => simp [IR.dataType?, hu.1.1.dataType]
    have hleaf : extractLeaf n = n := by
      simp [extractLeaf, IRNode.containString, IRNode.containInt, IRNode.containFloat, hn.data]
    simp only [extractStructure, if_neg (hdata hl), if_neg (hdata hr), ihl hl, ihr hr, hleaf, ite_self]

end

theorem tokens_deepCopy (t : IR) : IR.tokens (deepCopy t) = t.tokens := by
  have hop : ∀ (n : IRNode) (field : IROperator → Str), field .empty = [] →
      IR.opTokens n.copied.op field = IR.opTokens n.op field := by
    intro n field hfield
    cases h : n.op with
    | none => simp [IRNode.copied, IR.opTokens, h, hfield]
    | some op => simp [IRNode.copied, h]
  induction t with
  | nil => rfl
  | node n l r ihl ihr =>
    rw [deepCopy_node, IR.tokens, IR.tokens, ihl, ihr, hop n _ rfl, hop n _ rfl, hop n _ rfl]
    rfl

structure LibraryFits (G : RuleGrammar) (lib : Entries) : Prop where
  fits : ∀ T, ∀ e ∈ lib T, Fits G e
  type : ∀ T, ∀ e ∈ lib T, e.type? = some T
  full : ∀ r : Fin kUnknown, G r ≠ [] → lib r ≠ []

/-- Wherever the operator of an entry may go over a `kUnknown` child of a node
of `root`, the node still prints something of its rule. -/
def SplicesFit (G : RuleGrammar) (lib : Entries) (root : IR) : Prop :=
  ∀ p n cl cr m rl rr, p ≠ [] → root.subtreeAt p = .node n cl cr → shouldMutate (.node n cl cr) →
    n.op.getD .empty ≠ .empty → .node m rl rr ∈ lib n.type → sameInterface rl cl → sameInterface rr cr →
      (IR.type? cl = some kUnknown ∨ IR.type? cr = some kUnknown) →
        ∃ r : Fin kUnknown, n.type = r ∧ InLanguage G r (IR.tokens (.node m cl cr))

theorem symbols_of_type {t : IR} {r : Fin kUnknown} (h : t.type? = some r.val) : symbols t = [.rule r] := by
  cases t with
  | nil => cases h
  | node n l rt =>
    have htype : n.type = r := Option.some.inj h
    have hlt : n.type < kUnknown := by
      rw [htype]
      exact r.isLt
    rw [symbols, dif_pos hlt]
    exact congrArg (fun k => [GrammarSymbol.rule k]) (Fin.ext htype)

theorem Fits.rule {t : IR} (h : Fits G t) (hknown : notUnknown t) :
    ∃ r : Fin kUnknown, t.type? = some r.val ∧ G r ≠ [] := by
  cases t with
  | nil => cases hknown
  | node n l r =>
    have hne : n.type ≠ kUnknown := by
      intro htype
      simp [notUnknown, IR.type?, htype] at hknown
    have hlt : n.type < kUnknown := lt_of_le_of_ne h.1.1.type hne
    obtain ⟨alt,halt,-⟩ := h.1.2 hlt
    exact ⟨⟨n.type,hlt⟩,rfl,List.ne_nil_of_mem halt⟩

/-- What is offered in the place of a child spells the child's symbols. -/
theorem LibraryFits.spells_offered {lib : Entries} (hlib : LibraryFits G lib) {c e : IR} (hc : Fits G c)
    (hknown : notUnknown c) (he : Offered lib (c.type?.getD 0) e) : SpellsOf G (symbols c) e.tokens := by
  obtain ⟨r,htype,hrule⟩ := hc.rule hknown
  rw [htype, Option.getD_some] at he
  rcases he with he | ⟨hnil,-⟩
  · rw [symbols_of_type htype, ← symbols_of_type (hlib.type r e he)]
    exact (hlib.fits r e he).spells
  · exact absurd hnil (hlib.full r hrule)

theorem type?_eq_none_iff {t : IR} : t.type? = none ↔ t = .nil := by cases t <;> simp [IR.type?]

theorem symbols_sameInterface {t u : IR} (h : sameInterface t u) (hu : u.type? ≠ some kUnknown) (ht : Fits G t) :
    symbols t = symbols u := by
  have htype : t.type? = u.type? := of_decide_eq_true h
  cases hroot : t.type? with
  | none =>
    rw [type?_eq_none_iff.mp hroot, type?_eq_none_iff.mp (htype.symm.trans hroot)]
  | some T =>
    have hknown : notUnknown t := by
      rw [notUnknown, htype, ← htype, hroot, Bool.and_eq_true, bne_iff_ne, bne_iff_ne]
      exact ⟨by simp,fun heq => hu (htype ▸ hroot.trans heq)⟩
    obtain ⟨k,hk,-⟩ := ht.rule hknown
    rw [symbols_of_type hk, symbols_of_type (htype ▸ hk)]

theorem notUnknown_of_shouldMutate {t : IR} (ht : t ≠ .nil) (h : shouldMutate t) : notUnknown t := by
  cases t with
  | nil => exact absurd rfl ht
  | node n l r =>
    simp only [shouldMutate, Bool.and_eq_true, bne_iff_ne] at h
    simp only [notUnknown, Bool.and_eq_true, bne_iff_ne]
    exact ⟨by simp [IR.type?],h.1.1⟩

/-- A variant of a node prints something of the node's rule. -/
theorem spells_variant {lib : Entries} (hlib : LibraryFits G lib) {root v : IR} (hroot : Fits G root)
    (hsplice : SplicesFit G lib root) {p : Path} (hpne : p ≠ []) (hpos : root.subtreeAt p ≠ .nil)
    (hshould : shouldMutate (root.subtreeAt p)) (hv : Variant lib (root.subtreeAt p) v) :
    SpellsOf G (symbols (root.subtreeAt p)) v.tokens := by
  have hcur := hroot.subtreeAt p
  generalize hp : root.subtreeAt p = cur at hv hpos hshould hcur
  cases hv with
  | @swap n m cl cr rl rr hop hres hl hr =>
    rw [← deepCopy_node, tokens_deepCopy]
    obtain ⟨r,htype,hrule⟩ := hcur.rule (notUnknown_of_shouldMutate hpos hshould)
    have hn : n.type = r := Option.some.inj htype
    rcases hres with hres | ⟨hnil,-⟩
    · by_cases hunknown : IR.type? cl = some kUnknown ∨ IR.type? cr = some kUnknown
      · obtain ⟨r',hr',hlang⟩ := hsplice p n cl cr m rl rr hpne hp hshould hop hres hl hr hunknown
        have htype' : IR.type? (.node n cl cr) = some r'.val := congrArg some hr'
        rw [symbols_of_type htype']
        exact inLanguage_iff.mp hlang
      · rw [not_or] at hunknown
        obtain ⟨⟨hm,halt⟩,hrl,hrr⟩ := hlib.fits _ _ hres
        have hspells := spells_node hm halt (symbols_sameInterface hl hunknown.1 hrl ▸ hcur.2.1.spells)
          (symbols_sameInterface hr hunknown.2 hrr ▸ hcur.2.2.spells)
        rw [symbols_of_type ((hlib.type _ _ hres).trans (congrArg some hn))] at hspells
        rw [symbols_of_type htype, tokens_node hm.data]
        exact hspells
    · rw [hn] at hnil
      exact absurd hnil (hlib.full r hrule)
  | @child _ e sd hknown he =>
    rw [← deepCopy_setChild, tokens_deepCopy]
    exact hcur.spells_replaceAt (p := [sd]) (ne_nil_of_notUnknown hknown)
      (hlib.spells_offered (hcur.child sd) hknown he)
  | @both _ e e' hl hr he he' =>
    rw [← deepCopy_setChild, ← deepCopy_setChild, tokens_deepCopy]
    cases cur with
    | nil => exact absurd rfl hpos
    | node n cl cr =>
      obtain ⟨⟨hn,halt⟩,hcl,hcr⟩ := hcur
      rw [setChild, setChild, tokens_node hn.data]
      exact spells_node hn halt (hlib.spells_offered hcl hl he) (hlib.spells_offered hcr hr he')

theorem inLanguage_mutant {lib : Entries} (hlib : LibraryFits G lib) {root : IR} (hroot : Fits G root)
    (hsplice : SplicesFit G lib root) {r : Fin kUnknown} (htype : symbols root = [.rule r]) {rand : Rand} {m : IR}
    (hm : m ∈ (mutateIRs lib root rand).1) : InLanguage G r m.tokens := by
  obtain ⟨p,hpne,hpos,hshould,r',v,hv,rfl⟩ := mem_mutateIRs hm
  rw [tokens_deepCopy, inLanguage_iff, ← htype]
  exact hroot.spells_replaceAt hpos (spells_variant hlib hroot hsplice hpne hpos hshould (variant_mutateIR hv))

/-- A full library of parse trees fits the grammar. -/
theorem LibraryInv.fits {s : Mutator} {lib : Shelves} (h : LibraryInv s lib) {g : Garbage}
    (hfrom : FromPrograms g (fun t => ∃ r, Parses G r t) lib)
    (hfull : ∀ r : Fin kUnknown, G r ≠ [] → s.irLibrary r ≠ []) : LibraryFits G lib.values := by
  refine ⟨fun T e he => ?_,fun T e he => ?_,fun r hr hnil => hfull r hr ?_⟩
  · obtain ⟨u,hu,rfl⟩ := List.mem_map.mp he
    obtain ⟨t,id,ir,id',id'',p,⟨r,hparse⟩,hrun,hvals⟩ := hfrom T u hu
    have hfits := (translateNode_fits hparse hrun).1
    rw [hvals, extractStructure_plain hfits]
    exact hfits.subtreeAt p
  · obtain ⟨u,hu,rfl⟩ := List.mem_map.mp he
    exact h.type T u hu
  · rw [h.entries, List.map_eq_nil_iff]
    exact List.map_eq_nil_iff.mp hnil

theorem tokens_congr {t t' : IR} (h : t.erase = t'.erase) : t.tokens = t'.tokens := by
  rw [← tokens_erase, h, tokens_erase]

/-- After every sequence of additions of parse trees that gives each rule an entry:
where no splice leaves its rule, every mutant is in the language of its root. -/
theorem mutants_inLanguage {g : Garbage} {s : Mutator} (h : LibraryRun g (fun t => ∃ r, Parses G r t) s)
    (hfull : ∀ r : Fin kUnknown, G r ≠ [] → s.irLibrary r ≠ []) {entries : Entries}
    (hentries : ∀ T, List.Forall₂ (Leads s) (s.irLibrary T) (entries T)) {t : ParseTree} {r : Fin kUnknown}
    (ht : Parses G r t) {root : BinaryTree (ℕ × IRNode)} {id id' : StatementID}
    (htranslate : translateNode g.scopeId t id = .ok (some (vals root), id')) (hroot : Holds s.heap root)
    (hnodup : (addrs root).Nodup) (hsplice : SplicesFit G entries (vals root)) (rand : Rand) :
    AllMutants g { s with rand := rand } (ptr root) fun m => InLanguage G r m.tokens := by
  obtain ⟨lib,hinv,hfrom,hempty⟩ := h.inv
  have hready : Ready s.heap.next lib { s with rand := rand } := (hinv.ready hempty).withRand rand
  have hne : root ≠ .nil := fun hnil => translateNode_ne_nil htranslate (vals_eq_nil.mpr hnil)
  have hcongr : ∀ m m' : IR, m.erase = m'.erase → (InLanguage G r m.tokens ↔ InLanguage G r m'.tokens) :=
    fun m m' heq => by rw [tokens_congr heq]
  rw [allMutants_iff hready hroot hnodup hne hcongr]
  obtain ⟨hfits,hsymbols⟩ := translateNode_fits ht htranslate
  rw [← hinv.values_eq hentries] at hsplice
  exact fun m hm => inLanguage_mutant (hinv.fits hfrom hfull) hfits hsplice hsymbols hm

/-- Without `kUnknown` nodes nothing is spliced. -/
theorem splicesFit_of_known {lib : Entries} {root : IR} (h : ∀ n ∈ root.values, n.type ≠ kUnknown) :
    SplicesFit G lib root := by
  intro p n cl cr m rl rr hpne hp hshould hop hres hl hr hunknown
  have hchild : ∀ sd, IR.type? ((BinaryTree.node n cl cr).child sd) ≠ some kUnknown := by
    intro sd htype
    cases hc : (BinaryTree.node n cl cr).child sd with
    | nil =>
      rw [hc] at htype
      cases htype
    | node k l r =>
      rw [hc] at htype
      refine h k (mem_values.mpr ⟨p ++ [sd],?_⟩) (Option.some.inj htype)
      rw [subtreeAt_append, hp]
      exact congrArg root? hc
  exact absurd hunknown (not_or.mpr ⟨hchild .left,hchild .right⟩)

end

def parens : RuleGrammar := fun r =>
  if r = 0 then [[.rule 1]] else if r = 1 then [[.terminal ['('], .rule 2, .terminal [')']]]
  else if r = 2 then [[.terminal ['x']]] else []

def parenProgram : ParseTree :=
  .rule { ruleIndex := 0 } [.rule { ruleIndex := 1 }
    [.terminal ['('], .rule { ruleIndex := 2 } [.terminal ['x']], .terminal [')']]]

theorem parenProgram_parses : Parses parens 0 parenProgram := by
  have hx : ParsesAll parens [.terminal ['x']] [.terminal ['x']] := .terminal _ .nil
  have hparen : ParsesAll parens [.terminal ['('], .rule 2, .terminal [')']] _ :=
    .terminal _ (.rule (.node (by decide) hx) (.terminal _ .nil))
  have hroot : ParsesAll parens [.rule 1] _ := .rule (.node (by decide) hparen) .nil
  exact .node (by decide) hroot

def parensRun : Except Fault Bool := do
  let (_, s) ← translateToIR zeroed parenProgram (Mutator.start Heap.empty (Stream'.const 0))
  let (_, s') ← addToIRLibrary zeroed parenProgram s
  return s'.irLibrary 0 ≠ [] ∧ s'.irLibrary 1 ≠ [] ∧ s'.irLibrary 2 ≠ []

theorem parens_inLanguage : ∃ (s s' : Mutator) (root : BinaryTree (ℕ × IRNode)),
    translateToIR zeroed parenProgram (Mutator.start Heap.empty (Stream'.const 0)) = .ok (ptr root, s) ∧
    addToIRLibrary zeroed parenProgram s = .ok ((), s') ∧
    AllMutants zeroed { s' with rand := Stream'.const 1 } (ptr root) fun m => InLanguage parens 0 m.tokens := by
  have hstart : LibraryRun zeroed (fun t => ∃ r, Parses parens r t) (Mutator.start Heap.empty (Stream'.const 0)) :=
    Mutator.start_run ..
  obtain ⟨ir,id',htranslate,hknown⟩ : ∃ ir id', translateNode zeroed.scopeId parenProgram 0 = .ok (some ir, id') ∧
      ∀ n ∈ BinaryTree.values ir, n.type ≠ kUnknown := ⟨_,_,rfl,by decide +kernel⟩
  obtain ⟨-,-,-,hempty₀⟩ := hstart.inv
  obtain ⟨_,s,hrun,root,hnew,rfl,rfl,hlist,hhash,hempty,-⟩ := meets_translateToIR (g := zeroed)
    (s := Mutator.start Heap.empty (Stream'.const 0)) htranslate
  have hs : LibraryRun zeroed (fun t => ∃ r, Parses parens r t) s :=
    .elsewhere hstart hnew.ext hlist hhash (.inl hempty)
  have hlists : parensRun = .ok true := by decide +kernel
  obtain ⟨⟨_,s₁⟩,hs₁,hlists⟩ := bind_ok hlists
  rw [hrun] at hs₁
  cases hs₁
  obtain ⟨⟨⟨⟩,s'⟩,hadd,hlists⟩ := bind_ok hlists
  obtain ⟨h0,h1,h2⟩ := of_decide_eq_true (Except.ok.inj hlists)
  have hs' := LibraryRun.add hs ⟨0,parenProgram_parses⟩ hadd
  obtain ⟨lib,hinv,-⟩ := hs.inv
  obtain ⟨lib',hadded⟩ := addToIRLibrary_added hinv hadd
  have hfull : ∀ r : Fin kUnknown, parens r ≠ [] → s'.irLibrary r ≠ [] := by
    intro r hr
    unfold parens at hr
    split at hr
    · subst r
      exact h0
    · split at hr
      · subst r
        exact h1
      · split at hr
        · subst r
          exact h2
        · exact absurd rfl hr
  exact ⟨s,s',root,hrun,hadd,mutants_inLanguage hs' hfull hadded.inv.leads parenProgram_parses htranslate
    (hnew.holds.keep hadded.ext) hnew.nodup (splicesFit_of_known hknown) (Stream'.const 1)⟩

def quads : RuleGrammar := fun r =>
  if r = 0 then [[.rule 1]]
  else if r = 1 then [[.terminal ['a'], .terminal ['b'], .terminal ['c'], .terminal ['d']],
    [.terminal ['e'], .terminal ['f'], .terminal ['g'], .terminal ['h']]]
  else []

def quad (a b c d : Char) : ParseTree :=
  .rule { ruleIndex := 0 } [.rule { ruleIndex := 1 } [.terminal [a], .terminal [b], .terminal [c], .terminal [d]]]

theorem quad_parses {a b c d : Char}
    (h : [.terminal [a], .terminal [b], .terminal [c], .terminal [d]] ∈ quads 1) : Parses quads 0 (quad a b c d) := by
  have hword : ParsesAll quads _ _ := .terminal [a] (.terminal [b] (.terminal [c] (.terminal [d] .nil)))
  have hroot : ParsesAll quads [.rule 1] _ := .rule (.node h hword) .nil
  exact .node (by decide) hroot

def quadsRun : Except Fault (Bool × Bool × List Str) := do
  let (_, s) ← addToIRLibrary zeroed (quad 'a' 'b' 'c' 'd') (Mutator.start Heap.empty (Stream'.const 1))
  let (_, s) ← addToIRLibrary zeroed (quad 'e' 'f' 'g' 'h') s
  let (root, s') ← translateToIR zeroed (quad 'a' 'b' 'c' 'd') s
  let (ps, s'') ← mutateRoot zeroed root s'
  let (m, _) ← treeOf (ps.headD none) s''
  return (s.irLibrary 0 ≠ [] ∧ s.irLibrary 1 ≠ [], root = none ∨ ps = [], m.tokens)

/-- `abch` is no word of the grammar. -/
theorem quads_not_inLanguage : ¬ InLanguage quads 0 [['a'], ['b'], ['c'], ['h']] := by
  rintro ⟨t,ht,hyield⟩
  cases ht with
  | node halt hcs =>
    obtain rfl := List.mem_singleton.mp halt
    cases hcs with
    | rule ht hnil =>
      cases hnil
      cases ht with
      | node halt hcs =>
        rcases List.mem_pair.mp halt with rfl | rfl
        all_goals
          cases hcs with
          | terminal _ hcs => cases hcs with
            | terminal _ hcs => cases hcs with
              | terminal _ hcs => cases hcs with
                | terminal _ hcs =>
                  cases hcs
                  exact absurd hyield (by decide)

theorem quads_splice : ¬ ∀ (G : RuleGrammar) (g : Garbage) (s s' : Mutator) (t : ParseTree) (r : Fin kUnknown)
    (root : Ptr), LibraryRun g (fun t => ∃ r, Parses G r t) s → (∀ r : Fin kUnknown, G r ≠ [] → s.irLibrary r ≠ []) →
      Parses G r t → translateToIR g t s = .ok (root, s') → root ≠ none →
        AllMutants g s' root fun m => InLanguage G r m.tokens := by
  intro hclaim
  have hrun : quadsRun = .ok (true, false, [['a'], ['b'], ['c'], ['h']]) := by decide +kernel
  obtain ⟨⟨⟨⟩,s₁⟩,h₁,hrun⟩ := bind_ok hrun
  obtain ⟨⟨⟨⟩,s₂⟩,h₂,hrun⟩ := bind_ok hrun
  obtain ⟨⟨root,s₃⟩,h₃,hrun⟩ := bind_ok hrun
  obtain ⟨⟨ps,s₄⟩,h₄,hrun⟩ := bind_ok hrun
  obtain ⟨⟨m,s₅⟩,h₅,hrun⟩ := bind_ok hrun
  simp only [pure, Except.pure, Except.ok.injEq, Prod.mk.injEq] at hrun
  obtain ⟨hfull,hps,hm⟩ := hrun
  have hstart : LibraryRun zeroed (fun t => ∃ r, Parses quads r t) (Mutator.start Heap.empty (Stream'.const 1)) :=
    Mutator.start_run ..
  have hlibrary := LibraryRun.add (.add hstart ⟨0,quad_parses (by decide)⟩ h₁) ⟨0,quad_parses (by decide)⟩ h₂
  obtain ⟨h0,h1⟩ := of_decide_eq_true hfull
  obtain ⟨hroot,hne⟩ := not_or.mp (of_decide_eq_false hps)
  have hrules : ∀ r : Fin kUnknown, quads r ≠ [] → s₂.irLibrary r ≠ [] := by
    intro r hr
    unfold quads at hr
    split at hr
    · subst r
      exact h0
    · split at hr
      · subst r
        exact h1
      · exact absurd rfl hr
  obtain ⟨ps',s',hrun',hall⟩ := hclaim quads zeroed s₂ s₃ _ 0 root hlibrary hrules (quad_parses (by decide)) h₃ hroot
  rw [h₄] at hrun'
  cases hrun'
  obtain ⟨q,qs,rfl⟩ := List.exists_cons_of_ne_nil hne
  obtain ⟨m',⟨u,rfl,hholds,rfl⟩,hm'⟩ := hall q List.mem_cons_self
  have hsame : m = vals u := (meets_treeOf (Q := fun t _ => t = vals u) hholds rfl).of_run h₅
  rw [← hsame, hm] at hm'
  exact quads_not_inLanguage hm'

end PolyGlot
