import PolyGlot.Antlr.Labels
import PolyGlot.Antlr.Numbering
import PolyGlot.Generator.Parameters
import PolyGlot.Mutation.Extraction
import PolyGlot.Scope.Origin
import PolyGlot.Validate.Repair

set_option autoImplicit false

/-! # Uses and definitions in source order

The generator offers a definition when its id is smaller than that of the leaf.
In a translated tree such a definition does not come after the leaf. A
placeholder of `ExtractStructure` has an id that is larger than all of these, and
is offered everything in its scopes.
-/
namespace PolyGlot

open BinaryTree Prog

section
variable (st : ScopeTree) (t : IR) (p : Path) (cur : IRNode)

def Around (d : Definition) : Prop := ∃ τ, ∃ s ∈ st.enclosing cur.scopeId, d ∈ s.2.symbolTable.vals τ

/-- The node that the definition has its id from does not come after `p`. -/
def NotAfter (d : Definition) : Prop :=
  ∃ q n, (t.subtreeAt q).root? = some n ∧ n.statementId = d.statementId ∧ ¬ Before p q

def DefinedBefore (x : Str) : Prop := ∃ d, Around st cur d ∧ d.name = x ∧ NotAfter t p d

end

/-- What is written at each placeholder of `t` names only what is defined before. -/
def NoUseBeforeDefinition (s : CollectState) (t t' : IR) : Prop :=
  ∀ p cur, t.subtreeAt p = .node cur .nil .nil → isFixme cur = true →
    ∃ (e : Generator.Expr) (τ : TypeID),
      Generator.HasType s.types (collectAllVarDefinitionByType s.scopes s.types cur) Generator.Fits e τ ∧
      (t'.subtreeAt p).root? = some { cur with data := .string e.render } ∧
      ∀ x ∈ e.names, DefinedBefore s.scopes t p cur x

/-- No name is offered at the placeholder for the sake of a later definition alone:
where the id of the placeholder is none of the program, each later definition
around it has an earlier one of its name, and so has each function that a variable
has the type of. -/
structure NamesSettled (s : CollectState) (t : IR) (next : StatementID) (p : Path) (cur : IRNode) : Prop where
  later : next ≤ cur.statementId → ∀ d, Around s.scopes cur d → ¬ NotAfter t p d →
    DefinedBefore s.scopes t p cur d.name
  functions : ∀ τ d f, Visible s.scopes cur τ d → s.types.getFunctionType τ = some f → d.name ≠ f.name →
    DefinedBefore s.scopes t p cur f.name

theorem Visible.around {st : ScopeTree} {cur : IRNode} {τ : TypeID} {d : Definition} (h : Visible st cur τ d) :
    Around st cur d := by
  obtain ⟨s,hs,hd,_⟩ := h
  exact ⟨τ,s,hs,hd⟩

/-- A name that is offered is that of a visible definition, or of the function
that is its type. -/
theorem Generator.Nameable.visible {st : ScopeTree} {ts : TypeSystem} {cur : IRNode} {x : Str}
    (h : Nameable ts (collectAllVarDefinitionByType st ts cur) x) :
    ∃ τ d, Visible st cur τ d ∧ (d.name = x ∨ ∃ f, ts.getFunctionType τ = some f ∧ f.name = x) := by
  rcases h with ⟨k,τ,_,hx⟩ | ⟨τ,hτ,f,hf,rfl⟩
  · obtain ⟨_,d,hd,hname⟩ := mem_collect.mp hx
    exact ⟨τ,d,hd,.inl hname⟩
  · obtain ⟨y,hy⟩ := (collect_filled _).mem_iff.mp hτ
    obtain ⟨_,d,hd,_⟩ := mem_collect.mp hy
    exact ⟨τ,d,hd,.inr ⟨f,hf,rfl⟩⟩

/-- Where the visible definitions do not come after, the names that are offered are
defined before. -/
theorem NamesSettled.definedBefore {s : CollectState} {t : IR} {next : StatementID} {p : Path} {cur : IRNode} {x : Str}
    (h : NamesSettled s t next p cur) (hearly : cur.statementId < next → ∀ τ d, Visible s.scopes cur τ d → NotAfter t p d)
    (hx : Generator.Nameable s.types (collectAllVarDefinitionByType s.scopes s.types cur) x) :
    DefinedBefore s.scopes t p cur x := by
  have hname : ∀ τ d, Visible s.scopes cur τ d → DefinedBefore s.scopes t p cur d.name := by
    intro τ d hd
    by_cases hafter : NotAfter t p d
    · exact ⟨d,hd.around,rfl,hafter⟩
    · have hlate : next ≤ cur.statementId := by
        by_contra hlt
        exact hafter (hearly (Nat.lt_of_not_le hlt) τ d hd)
      exact h.later hlate d hd.around hafter
  obtain ⟨τ,d,hd,rfl | ⟨f,hf,rfl⟩⟩ := hx.visible
  · exact hname τ d hd
  · by_cases hsame : d.name = f.name
    · rw [← hsame]
      exact hname τ d hd
    · exact h.functions τ d f hd hf hsame

section
variable {uninit : StatementID → ScopeID} {u : IR} {id next : StatementID}

theorem DataAtLeaves.ofTranslation {tree : ParseTree} {id' : StatementID} (h : translateNode uninit tree id = .ok (some u,id')) :
    IR.DataAtLeaves u := by
  apply translateNode_induction (P := IR.DataAtLeaves) trivial
    (fun _ _ _ _ => ⟨fun _ => ⟨rfl,rfl⟩,trivial,trivial⟩)
    (fun _ _ _ _ _ hl hr => ⟨fun h => by simp [IRNode.containData] at h,hl,hr⟩) ?_ h
  intro ctx t ht
  cases t with
  | nil => simpa [decorate, IR.setDataType, IR.setScopeType, IR.modifyRoot] using ht
  | node n l r =>
    unfold decorate
    split <;> exact ht

theorem IR.DataAtLeaves.extractStructure {t : IR} (h : IR.DataAtLeaves t) (id : StatementID) :
    IR.DataAtLeaves (PolyGlot.extractStructure uninit t id).1 := by
  induction t generalizing id with
  | nil => exact h
  | node n l r ihl ihr =>
    have hchild : ∀ c : IR, (∀ id, IR.DataAtLeaves (PolyGlot.extractStructure uninit c id).1) → ∀ id,
        IR.DataAtLeaves (extractedChild uninit c id).1 := by
      intro c hc id
      unfold extractedChild
      split
      · exact ⟨fun _ => ⟨rfl,rfl⟩,trivial,trivial⟩
      · exact hc id
    rw [extractStructure_node]
    refine ⟨fun hn => ?_,hchild l (ihl h.2.1) _,hchild r (ihr h.2.2) _⟩
    rw [extractedChild_eq_nil, extractedChild_eq_nil]
    by_contra hkids
    rw [if_neg hkids] at hn
    exact hkids (h.1 hn)

theorem scopeType_extractLeaf (n : IRNode) : (extractLeaf n).scopeType = n.scopeType := by
  simp only [extractLeaf, apply_ite IRNode.scopeType, ite_self]

theorem statementId_extractLeaf (n : IRNode) : (extractLeaf n).statementId = n.statementId := by
  simp only [extractLeaf, apply_ite IRNode.statementId, ite_self]

/-- A node of the extracted tree stands for one of the tree, or is a placeholder
with a new id. -/
theorem extractStructure_node_cases {p : Path} {m : IRNode}
    (hm : ((extractStructure uninit u next).1.subtreeAt p).root? = some m) :
    (∃ n l r, u.subtreeAt p = .node n l r ∧ m = (if l = .nil ∧ r = .nil then extractLeaf n else n)) ∨
      next ≤ m.statementId ∧ m.dataType = .kDataDefault := by
  rcases subtreeAt_extractStructure uninit u next p with ⟨i,_,h⟩ | ⟨q,i,hq,hi,h⟩
  · rw [h] at hm
    cases hsub : u.subtreeAt p with
    | nil =>
      rw [hsub] at hm
      cases hm
    | node n l r =>
      rw [hsub, extractStructure_node] at hm
      exact .inl ⟨n,l,r,rfl,(Option.some.inj hm).symm⟩
  · obtain ⟨d,rfl⟩ := hq
    rw [subtreeAt_append, h] at hm
    cases d with
    | nil =>
      cases hm
      exact .inr ⟨hi,rfl⟩
    | cons s d => cases s <;> simp [fixmeLeaf, IR.ofData, root?] at hm

theorem dataType_of_isFixme_extractLeaf {n : IRNode} (h : isFixme (extractLeaf n) = true) : n.dataType ≠ .kDataDefault := by
  intro hdefault
  obtain ⟨type,op,data,dataType,scopeType,scopeId,statementId⟩ := n
  cases data <;> simp_all [extractLeaf, isFixme, IRNode.holdsString, IRNode.containString, IRNode.containInt,
    IRNode.containFloat, FIXMETAG]

theorem root?_of_same {t t' : IR} (h : t'.dropScopeIds = IR.dropScopeIds t) {p : Path} {n : IRNode}
    (hn : (t'.subtreeAt p).root? = some n) : ∃ m i, (t.subtreeAt p).root? = some m ∧ n = { m with scopeId := i } := by
  have hroots : ((t'.subtreeAt p).root?).map (fun n => { n with scopeId := 0 }) =
      ((t.subtreeAt p).root?).map fun n => { n with scopeId := 0 } := by
    rw [← root?_dropScopeIds, ← root?_dropScopeIds, h]
  rw [hn] at hroots
  cases hm : (t.subtreeAt p).root? with
  | none =>
    rw [hm] at hroots
    cases hroots
  | some m =>
    rw [hm, Option.map_some, Option.map_some, Option.some.injEq] at hroots
    refine ⟨m,n.scopeId,rfl,?_⟩
    calc n = { ({ n with scopeId := 0 } : IRNode) with scopeId := n.scopeId } := rfl
      _ = { ({ m with scopeId := 0 } : IRNode) with scopeId := n.scopeId } := by rw [hroots]

/-- At a placeholder that was in the program, a definition with a smaller id does
not come after: both nodes have a type of the grammar. -/
theorem notAfter_of_lt {tree : ParseTree} {id' : StatementID} (htranslate : translateNode uninit tree id = .ok (some u,id'))
    {t : IR} (hsame : t.dropScopeIds = IR.dropScopeIds (extractStructure uninit u next).1) {p : Path} {cur : IRNode}
    {d : Definition} (hp : (t.subtreeAt p).root? = some cur) (hfix : isFixme cur = true) (hold : cur.statementId < next)
    (hdefines : t.Defines d.statementId) (hd : d.statementId < cur.statementId) : NotAfter t p d := by
  obtain ⟨m,hm,htype,hid⟩ := hdefines
  obtain ⟨q,hq⟩ := mem_values.mp hm
  refine ⟨q,m,hq,hid,fun hbefore => ?_⟩
  have hplain := (translateNode_labels htranslate).unknowns
  have hknown : ∀ {q n l r}, u.subtreeAt q = .node n l r → n.dataType ≠ .kDataDefault → n.type ≠ kUnknown := by
    intro q n l r hq hn hunknown
    exact hn (hplain n (mem_values.mpr ⟨q,by rw [hq]; rfl⟩) hunknown).1
  obtain ⟨cur',_,hcur',rfl⟩ := root?_of_same hsame hp
  obtain ⟨m',_,hm',rfl⟩ := root?_of_same hsame hq
  rcases extractStructure_node_cases hcur' with ⟨n,l,r,hn,rfl⟩ | ⟨hnew,_⟩
  · rcases extractStructure_node_cases hm' with ⟨n',l',r',hn',rfl⟩ | ⟨_,hdefault⟩
    · have hleaf : l = .nil ∧ r = .nil := by
        by_contra hkids
        rw [if_neg hkids] at hfix
        exact hkids ((DataAtLeaves.ofTranslation htranslate).leaf hn (IR.containData_of_isFixme hfix))
      rw [if_pos hleaf] at hfix hd
      have hid' : (if l' = .nil ∧ r' = .nil then extractLeaf n' else n').statementId = n'.statementId := by
        split
        · exact statementId_extractLeaf n'
        · rfl
      have htype' : n'.dataType ≠ .kDataDefault := by
        intro hdefault
        apply htype
        change (if l' = .nil ∧ r' = .nil then extractLeaf n' else n').dataType = _
        split
        · rw [dataType_extractLeaf, hdefault]
        · exact hdefault
      have horder : IdsInOrder u := IR.idsInOrder_of_sorted (by simpa using ((translateNode_numbered htranslate).2 u rfl).sorted)
      have hless := horder p q n n' hbefore (by rw [hn]; rfl) (by rw [hn']; rfl)
        (hknown hn (dataType_of_isFixme_extractLeaf hfix)) (hknown hn' htype')
      rw [← hid] at hd
      change (if l' = .nil ∧ r' = .nil then extractLeaf n' else n').statementId < (extractLeaf n).statementId at hd
      rw [hid', statementId_extractLeaf] at hd
      exact lt_asymm hless hd
    · exact htype hdefault
  · exact absurd hold (Nat.not_lt_of_le hnew)

theorem markFixMe_of_noFixUnit {t : IR} (h : NoFixUnit t) : markFixMe t = t := by
  induction t with
  | nil => rfl
  | node n l r ihl ihr =>
    obtain ⟨⟨hl,hls⟩,hr,hrs⟩ := noFixUnit_node.mp h
    have hchild : ∀ {c : IR}, c.dataType? ≠ some .kFixUnit → markFixMe c = c → markChild c (markFixMe c) = c := by
      intro c hc hsame
      cases c with
      | nil => rfl
      | node m cl cr => rw [IR.markChild_other (by simp) hc, hsame]
    rw [markFixMe, hchild hl (ihl hls), hchild hr (ihr hrs)]

end

/-- An extracted program is validated as it is: each name that is written belongs
to a definition around the placeholder that does not come after it, as long as no
name is offered for the sake of a later definition alone. -/
theorem validate_noUseBeforeDefinition {uninit : StatementID → ScopeID} {tree : ParseTree} {u : IR}
    {id id' next : StatementID} (htranslate : translateNode uninit tree id = .ok (some u,id'))
    (hscoped : IR.isScoped u = true) {cfg : Configuration} {before : TypeSystem} {rand rand' : Rand} {v : Validated}
    (hrun : validate cfg before (extractStructure uninit u next).1 rand = .ok (v,rand'))
    (_hsuccess : v.error = .kSuccess)
    (hsettled : ∀ built, buildScopeTreeWithSymbolTable cfg before (extractStructure uninit u next).1 = .ok built →
      ∀ p cur, built.1.subtreeAt p = .node cur .nil .nil → isFixme cur = true → NamesSettled built.2 built.1 next p cur) :
    ∃ built, buildScopeTreeWithSymbolTable cfg before (extractStructure uninit u next).1 = .ok built ∧
      built.1.dropScopeIds = IR.dropScopeIds (extractStructure uninit u next).1 ∧
      NoUseBeforeDefinition built.2 built.1 v.root := by
  have hdata : IR.DataAtLeaves (extractStructure uninit u next).1 :=
    (DataAtLeaves.ofTranslation htranslate).extractStructure next
  obtain ⟨built,hbuilt,hsite,hdecided,_,htexts⟩ := validate_texts hdata hrun
  rw [markFixMe_of_noFixUnit (noFixUnit_extractStructure uninit u next)] at hbuilt
  have hroot : IR.isScoped (extractStructure uninit u next).1 = true := by
    cases u with
    | nil => cases hscoped
    | node n l r =>
      rw [extractStructure_node, IR.isScoped_iff, apply_ite IRNode.scopeType, scopeType_extractLeaf, ite_self]
      exact IR.isScoped_iff.mp hscoped
  obtain ⟨hfrom,hsame⟩ := buildScopeTreeWithSymbolTable_recordedFrom hroot hbuilt
  refine ⟨built,hbuilt,hsame,fun p cur hp hfix => ?_⟩
  have hcur : (built.1.subtreeAt p).root? = some cur := by rw [hp]; rfl
  have hmem := (hdecided p).mpr ((hsite p).mp ⟨cur,hcur,hfix⟩)
  obtain ⟨n,text,hn,htext,r,r',hgenerate⟩ := htexts.fixed p hmem
  rw [hcur] at hn
  cases hn
  obtain ⟨sat,_,hsat,hcore⟩ := Generator.generateExpression_core hgenerate
  obtain ⟨τ,e,_,htype,rfl⟩ := (Generator.generateExpressionByTypeCore_returns collect_sorted hsat 52 _).of_run _ _ _ hcore
  refine ⟨e,τ,htype,htext,fun x hx => ?_⟩
  apply (hsettled built hbuilt p cur hp hfix).definedBefore ?_ (htype.nameable x hx)
  intro hold τ d hd
  obtain ⟨⟨i,sc⟩,hsc,hd,hlt⟩ := hd
  exact notAfter_of_lt htranslate hsame hcur hfix hold (hfrom i sc τ d (ScopeTree.mem_enclosing hsc) hd) hlt

/-- `INT a ;` and a unit that is replaced, in either order. -/
def unitAndVariable (unitFirst : Bool) : ParseTree :=
  let unit : ParseTree := .rule ⟨1,false,false,false,.kFixUnit,.kScopeDefault⟩ [leafRule .kDataDefault "c".toList]
  let declaration : ParseTree := .rule ⟨1,false,false,false,.kVariableDefinition,.kScopeDefault⟩
    [leafRule .kVariableType "INT".toList,leafRule .kVariableName "a".toList,.terminal ";".toList]
  .rule ⟨0,false,false,false,.kDataDefault,.kScopeGlobal⟩ (if unitFirst then [unit,declaration] else [declaration,unit])

def unitAndVariableIR (unitFirst : Bool) : IR := match translateNode id (unitAndVariable unitFirst) 0 with
  | .ok (some u, _) => u
  | _ => .nil

abbrev extractedUnit (unitFirst : Bool) : IR := (extractStructure id (unitAndVariableIR unitFirst) 6).1

def unitPath (unitFirst : Bool) : Path := if unitFirst then [.left] else [.right]
def namePath (unitFirst : Bool) : Path := if unitFirst then [.right,.right] else [.left,.right]
def nameId (unitFirst : Bool) : StatementID := if unitFirst then 3 else 1

def unitNode : IRNode := ⟨kUnknown,none,.string FIXMETAG,.kDataDefault,.kScopeDefault,1,6⟩

structure OneVariable (unitFirst : Bool) (built : IR × CollectState) : Prop where
  unit : built.1.subtreeAt (unitPath unitFirst) = .node unitNode .nil .nil
  only : ∀ p cur, (built.1.subtreeAt p).root? = some cur → isFixme cur = true → p = unitPath unitFirst
  around : ∀ τ s d, s ∈ built.2.scopes.enclosing 1 → d ∈ s.2.symbolTable.vals τ →
    τ = 10 ∧ d = ⟨"a".toList,10,nameId unitFirst⟩
  name : ∃ n, (built.1.subtreeAt (namePath unitFirst)).root? = some n ∧ n.statementId = nameId unitFirst
  onlyName : ∀ q n, (built.1.subtreeAt q).root? = some n → n.statementId = nameId unitFirst → q = namePath unitFirst
  noFunction : built.2.types.isFunctionType 10 = false

theorem mem_filter_postorder {t : IR} {q : Path} {n : IRNode} {f : IRNode → Bool} (hn : (t.subtreeAt q).root? = some n)
    (hf : f n = true) : q ∈ t.postorder.filter fun q => (t.subtreeAt q).root?.any f := by
  rw [List.mem_filter, hn]
  refine ⟨mem_postorder.mpr fun hnil => ?_,hf⟩
  rw [hnil] at hn
  cases hn

theorem unitAndVariable_oneVariable (unitFirst : Bool) : ∃ built,
    buildScopeTreeWithSymbolTable (intConfig true) .initial (extractedUnit unitFirst) = .ok built ∧
      OneVariable unitFirst built := by
  have htree : (buildScopeTreeWithSymbolTable (intConfig true) .initial (extractedUnit unitFirst)).map (fun r =>
      (r.1.subtreeAt (unitPath unitFirst),(r.1.subtreeAt (namePath unitFirst)).root?.map IRNode.statementId,
        r.1.postorder.filter (fun q => (r.1.subtreeAt q).root?.any isFixme),
        r.1.postorder.filter fun q => (r.1.subtreeAt q).root?.any fun n => n.statementId = nameId unitFirst)) =
      .ok (.node unitNode .nil .nil,some (nameId unitFirst),[unitPath unitFirst],[namePath unitFirst]) := by
    cases unitFirst with
    | false => decide +kernel
    | true => decide +kernel
  have hstate : (buildScopeTreeWithSymbolTable (intConfig true) .initial (extractedUnit unitFirst)).map (fun r =>
      ((r.2.scopes.enclosing 1).map fun s => s.2.symbolTable.toList,r.2.types.isFunctionType 10)) =
      .ok ([[(10,[⟨"a".toList,10,nameId unitFirst⟩])]],false) := by
    cases unitFirst with
    | false => decide +kernel
    | true => decide +kernel
  cases hbuild : buildScopeTreeWithSymbolTable (intConfig true) .initial (extractedUnit unitFirst) with
  | error f =>
    rw [hbuild] at htree
    cases htree
  | ok built =>
    rw [hbuild] at htree hstate
    simp only [Except.map, Except.ok.injEq, Prod.mk.injEq] at htree hstate
    obtain ⟨hunit,hname,honly,honlyName⟩ := htree
    obtain ⟨hscopes,hfunction⟩ := hstate
    refine ⟨built,rfl,hunit,fun p cur hcur hfix => ?_,fun τ s d hs hd => ?_,?_,fun q n hn hid => ?_,hfunction⟩
    · have hmem := mem_filter_postorder hcur hfix
      rwa [honly, List.mem_singleton] at hmem
    · have htable : s.2.symbolTable.toList ∈ (built.2.scopes.enclosing 1).map fun s => s.2.symbolTable.toList :=
        List.mem_map_of_mem hs
      have hentry := VectorMap.exists_entry hd
      rw [hscopes, List.mem_singleton] at htable
      rw [htable, List.mem_singleton, Prod.mk.injEq] at hentry
      obtain ⟨rfl,hvals⟩ := hentry
      rw [hvals, List.mem_singleton] at hd
      exact ⟨rfl,hd⟩
    · obtain ⟨n,hn,hid⟩ := Option.map_eq_some_iff.mp hname
      exact ⟨n,hn,hid⟩
    · have hmem := mem_filter_postorder (f := fun n => n.statementId = nameId unitFirst) hn (decide_eq_true hid)
      rwa [honlyName, List.mem_singleton] at hmem

theorem unitAndVariable_translated (unitFirst : Bool) :
    translateNode id (unitAndVariable unitFirst) 0 = .ok (some (unitAndVariableIR unitFirst),6) ∧
      IR.isScoped (unitAndVariableIR unitFirst) = true ∧ (unitAndVariableIR unitFirst).getChildNum ≤ 250 := by
  cases unitFirst with
  | false => decide +kernel
  | true => decide +kernel

theorem unitAndVariable_run (unitFirst : Bool) : ∃ v rand', v.error = .kSuccess ∧
    validate (intConfig true) .initial (extractedUnit unitFirst) (Generator.choices [0,10,0,1,0]) = .ok (v,rand') ∧
      (v.root.subtreeAt (unitPath unitFirst)).root? = some { unitNode with data := .string "a".toList } := by
  have hrun : (validate (intConfig true) .initial (extractedUnit unitFirst) (Generator.choices [0,10,0,1,0])).map
      (fun r => (r.1.error,(r.1.root.subtreeAt (unitPath unitFirst)).root?)) =
      .ok (.kSuccess,some { unitNode with data := .string "a".toList }) := by
    cases unitFirst with
    | false => decide +kernel
    | true => decide +kernel
  cases hvalidate : validate (intConfig true) .initial (extractedUnit unitFirst) (Generator.choices [0,10,0,1,0]) with
  | error f =>
    rw [hvalidate] at hrun
    cases hrun
  | ok r =>
    rw [hvalidate] at hrun
    simp only [Except.map, Except.ok.injEq, Prod.mk.injEq] at hrun
    exact ⟨r.1,r.2,hrun.1,rfl,hrun.2⟩

/-- Behind the variable its name may be used. -/
theorem variableFirst_settled {built : IR × CollectState}
    (hbuilt : buildScopeTreeWithSymbolTable (intConfig true) .initial (extractedUnit false) = .ok built) {p : Path}
    {cur : IRNode} (hp : built.1.subtreeAt p = .node cur .nil .nil) (hfix : isFixme cur = true) :
    NamesSettled built.2 built.1 6 p cur := by
  obtain ⟨built',hbuilt',hone⟩ := unitAndVariable_oneVariable false
  obtain rfl : built' = built := Except.ok.inj (hbuilt'.symm.trans hbuilt)
  obtain rfl := hone.only p cur (by rw [hp]; rfl) hfix
  obtain rfl : unitNode = cur := (BinaryTree.node.inj (hone.unit.symm.trans hp)).1
  constructor
  · intro _ d hd hafter
    obtain ⟨τ,s,hs,hd⟩ := hd
    obtain ⟨_,rfl⟩ := hone.around τ s d hs hd
    obtain ⟨n,hn,hid⟩ := hone.name
    have hbefore : ¬ Before (unitPath false) (namePath false) := by
      rintro ⟨c,p,q,hp,hq⟩
      cases c with
      | nil => cases hp
      | cons s c =>
        obtain ⟨rfl,_⟩ := List.cons.inj hp
        cases hq
    exact absurd ⟨_,n,hn,hid,hbefore⟩ hafter
  · intro τ d f hd hf _
    obtain ⟨s,hs,hd,_⟩ := hd
    obtain ⟨rfl,_⟩ := hone.around τ s d hs hd
    have hfunction := hone.noFunction
    rw [TypeSystem.isFunctionType_iff.mpr ⟨f,hf⟩] at hfunction
    cases hfunction

theorem variableFirst_noUseBeforeDefinition : ∃ built v rand',
    validate (intConfig true) .initial (extractedUnit false) (Generator.choices [0,10,0,1,0]) = .ok (v,rand') ∧
      buildScopeTreeWithSymbolTable (intConfig true) .initial (extractedUnit false) = .ok built ∧
      NoUseBeforeDefinition built.2 built.1 v.root := by
  obtain ⟨htranslate,hscoped,_⟩ := unitAndVariable_translated false
  obtain ⟨v,rand',hsuccess,hrun,_⟩ := unitAndVariable_run false
  obtain ⟨built,hbuilt,_,hsafe⟩ := validate_noUseBeforeDefinition htranslate hscoped hrun hsuccess
    fun built hbuilt p cur => variableFirst_settled hbuilt
  exact ⟨built,v,rand',hrun,hbuilt,hsafe⟩

/-- The placeholder of a unit before the variable gets the name of the variable,
which no earlier definition has. -/
theorem unitFirst_usedBeforeDefinition : ∃ u id' built v rand', translateNode id (unitAndVariable true) 0 = .ok (some u,id') ∧
    IR.isScoped u = true ∧ u.getChildNum ≤ 250 ∧
    validate (intConfig true) .initial (extractStructure id u id').1 (Generator.choices [0,10,0,1,0]) = .ok (v,rand') ∧
    v.error = .kSuccess ∧ buildScopeTreeWithSymbolTable (intConfig true) .initial (extractStructure id u id').1 = .ok built ∧
    ¬ NoUseBeforeDefinition built.2 built.1 v.root := by
  obtain ⟨htranslate,hscoped,hsmall⟩ := unitAndVariable_translated true
  obtain ⟨built,hbuilt,hone⟩ := unitAndVariable_oneVariable true
  obtain ⟨v,rand',hsuccess,hrun,htext⟩ := unitAndVariable_run true
  refine ⟨_,_,built,v,rand',htranslate,hscoped,hsmall,hrun,hsuccess,hbuilt,fun hsafe => ?_⟩
  obtain ⟨e,τ,_,hwritten,hnames⟩ := hsafe (unitPath true) unitNode hone.unit (by decide)
  rw [htext] at hwritten
  have hrender : e.render = "a".toList := by
    simp only [Option.some.injEq, IRNode.mk.injEq, IRData.string.injEq] at hwritten
    exact hwritten.2.2.1.symm
  have hname := Generator.Expr.names_of_word (e := e) (by rw [hrender]; decide) (by rw [hrender]; decide)
    ⟨'a',by rw [hrender]; decide,by decide⟩
  obtain ⟨d,⟨τ',s,hs,hd⟩,_,q,n,hn,hid,hafter⟩ := hnames _ hname
  obtain ⟨_,rfl⟩ := hone.around τ' s d hs hd
  obtain rfl := hone.onlyName q n hn hid
  exact hafter ⟨[],[],[.right],rfl,rfl⟩

end PolyGlot
