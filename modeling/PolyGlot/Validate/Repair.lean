import PolyGlot.Validate.Validation

set_option autoImplicit false

/-! # What validation changes

Three walks decide which parts of a tree are exchanged: the one that looks for
units to mark, the one that asks whether a unit needs fixing, and the one that
collects the placeholders. They agree on the sites of the tree.
-/
namespace PolyGlot

open BinaryTree Prog

namespace IR

/-- A node with data is a leaf, as the constructors leave it. -/
def DataAtLeaves : IR → Prop
  | .nil => True
  | .node n l r => (n.containData = true → l = .nil ∧ r = .nil) ∧ DataAtLeaves l ∧ DataAtLeaves r

def HoldsFixme (t : IR) (p : Path) : Prop := ∃ n, t.subtreeAt p = .node n .nil .nil ∧ isFixme n = true

/-- Below the root, a fix unit that contains such a leaf. -/
def FixUnit (t : IR) (p : Path) : Prop :=
  p ≠ [] ∧ IR.dataType? (t.subtreeAt p) = some .kFixUnit ∧ ∃ q, p <+: q ∧ HoldsFixme t q

/-- Where something is fixed: at the outermost of these units, and at the leaves
that lie in none of them. -/
def Site (t : IR) (p : Path) : Prop :=
  FixUnit t p ∧ (∀ q, q <+: p → q ≠ p → ¬ FixUnit t q) ∨ HoldsFixme t p ∧ ∀ q, q <+: p → ¬ FixUnit t q

variable {t : IR} {p : Path}

theorem DataAtLeaves.child (h : DataAtLeaves t) (s : Side) : DataAtLeaves (t.child s) := by
  cases t with
  | nil => simpa using h
  | node n l r =>
    cases s with
    | left => exact h.2.1
    | right => exact h.2.2

theorem DataAtLeaves.leaf (h : DataAtLeaves t) {n : IRNode} {l r : IR} (hp : t.subtreeAt p = .node n l r)
    (hn : n.containData = true) : l = .nil ∧ r = .nil := by
  induction p generalizing t with
  | nil =>
    rw [subtreeAt_root] at hp
    subst hp
    exact h.1 hn
  | cons s p ih => exact ih (h.child s) hp

theorem containData_of_isFixme {n : IRNode} (h : isFixme n = true) : n.containData = true := by
  unfold isFixme IRNode.holdsString at h
  unfold IRNode.containData
  rw [beq_iff_eq.mp h]
  rfl

theorem DataAtLeaves.holdsFixme_iff (h : DataAtLeaves t) : HoldsFixme t p ↔ IsAt isFixme t p := by
  constructor
  · rintro ⟨n,hn,hfix⟩
    exact ⟨n,by rw [hn]; rfl,hfix⟩
  · rintro ⟨n,hn,hfix⟩
    cases hsub : t.subtreeAt p with
    | nil => simp [hsub, root?] at hn
    | node m l r =>
      rw [hsub] at hn
      cases hn
      obtain ⟨rfl,rfl⟩ := h.leaf hsub (containData_of_isFixme hfix)
      exact ⟨n,hsub,hfix⟩

theorem holdsFixme_cons {s : Side} : HoldsFixme t (s :: p) ↔ HoldsFixme (t.child s) p := Iff.rfl

theorem needFixing_iff : t.needFixing = true ↔ ∃ q, HoldsFixme t q := by
  induction t with
  | nil => simp [needFixing, HoldsFixme]
  | node n l r ihl ihr =>
    have hsplit : (∃ q, HoldsFixme (.node n l r) q) ↔
        HoldsFixme (.node n l r) [] ∨ (∃ q, HoldsFixme l q) ∨ ∃ q, HoldsFixme r q := by
      constructor
      · rintro ⟨_ | ⟨_ | _,q⟩,hq⟩
        · exact .inl hq
        · exact .inr (.inl ⟨q,hq⟩)
        · exact .inr (.inr ⟨q,hq⟩)
      · rintro (h | ⟨q,hq⟩ | ⟨q,hq⟩)
        · exact ⟨[],h⟩
        · exact ⟨.left :: q,hq⟩
        · exact ⟨.right :: q,hq⟩
    rw [hsplit, ← ihl, ← ihr]
    have hroot : HoldsFixme (.node n l r) [] ↔ l = .nil ∧ r = .nil ∧ isFixme n = true := by
      simp only [HoldsFixme, subtreeAt_root, BinaryTree.node.injEq]
      constructor
      · rintro ⟨_,⟨rfl,rfl,rfl⟩,h⟩
        exact ⟨rfl,rfl,h⟩
      · rintro ⟨rfl,rfl,h⟩
        exact ⟨n,⟨rfl,rfl,rfl⟩,h⟩
    rw [hroot]
    cases l <;> cases r <;> simp [needFixing, isFixme]

theorem child_markFixMe (s : Side) : (markFixMe t).child s = markChild (t.child s) (markFixMe (t.child s)) := by
  cases t with
  | nil => simp [markFixMe, markChild]
  | node n l r => cases s <;> rfl

theorem fixUnit_cons {s : Side} (h : FixUnit (t.child s) p) : FixUnit t (s :: p) := by
  obtain ⟨_,htype,q,hq,hfix⟩ := h
  exact ⟨by simp,htype,s :: q,List.cons_prefix_cons.mpr ⟨rfl,hq⟩,hfix⟩

theorem fixUnit_of_cons {s : Side} (h : FixUnit t (s :: p)) :
    IR.dataType? ((t.child s).subtreeAt p) = some .kFixUnit ∧ ∃ q, p <+: q ∧ HoldsFixme (t.child s) q := by
  obtain ⟨_,htype,_ | ⟨s',q⟩,hq,hfix⟩ := h
  · simp at hq
  · obtain ⟨rfl,hpre⟩ := List.cons_prefix_cons.mp hq
    exact ⟨htype,q,hpre,hfix⟩

theorem markChild_unit {n : IRNode} {l r marked : IR} (hunit : n.dataType = .kFixUnit) :
    markChild (.node n l r) marked = if needFixing (.node n l r) then placeholder n else .node n l r := if_pos hunit

theorem markChild_other {c marked : IR} (hc : c ≠ .nil) (hother : c.dataType? ≠ some .kFixUnit) :
    markChild c marked = marked := by
  cases c with
  | nil => exact absurd rfl hc
  | node n l r => exact if_neg fun h => hother (by rw [dataType?, h])

theorem dataType?_eq {c : IR} {d : DataType} (h : c.dataType? = some d) : ∃ n l r, c = .node n l r ∧ n.dataType = d := by
  cases c with
  | nil => cases h
  | node n l r => exact ⟨n,l,r,rfl,Option.some.inj h⟩

/-- An outermost unit becomes a placeholder with the ids of its root. -/
theorem markFixMe_unit (h : FixUnit t p) (hout : ∀ q, q <+: p → q ≠ p → ¬ FixUnit t q) :
    ∃ n l r, t.subtreeAt p = .node n l r ∧ (markFixMe t).subtreeAt p = placeholder n := by
  induction p generalizing t with
  | nil => exact absurd rfl h.1
  | cons s p ih =>
    obtain ⟨htype,q,hq,hfix⟩ := fixUnit_of_cons h
    simp only [subtreeAt_cons, child_markFixMe]
    by_cases hchild : IR.dataType? (t.child s) = some .kFixUnit
    · have hunit : FixUnit t [s] :=
        ⟨by simp,hchild,s :: q,List.cons_prefix_cons.mpr ⟨rfl,List.nil_prefix⟩,hfix⟩
      have hp : p = [] := by
        by_contra hne
        exact hout [s] (List.cons_prefix_cons.mpr ⟨rfl,List.nil_prefix⟩) (by simpa using Ne.symm hne) hunit
      subst hp
      obtain ⟨n,l,r,hc,hn⟩ := dataType?_eq hchild
      have hneeds : needFixing (.node n l r) = true := needFixing_iff.mpr ⟨q,hc ▸ hfix⟩
      rw [hc, markChild_unit hn, if_pos hneeds]
      exact ⟨n,l,r,rfl,rfl⟩
    · have hne : p ≠ [] := by
        rintro rfl
        exact hchild htype
      have hc : t.child s ≠ .nil := by
        intro hnil
        rw [hnil, subtreeAt_nil] at htype
        cases htype
      rw [markChild_other hc hchild]
      apply ih ⟨hne,htype,q,hq,hfix⟩
      intro q' hq' hneq hunit
      exact hout (s :: q') (List.cons_prefix_cons.mpr ⟨rfl,hq'⟩) (by simpa using hneq) (fixUnit_cons hunit)

/-- A node that lies in no such unit stays. -/
theorem markFixMe_kept (hout : ∀ q, q <+: p → ¬ FixUnit t q) :
    ((markFixMe t).subtreeAt p).root? = (t.subtreeAt p).root? := by
  induction p generalizing t with
  | nil => cases t <;> rfl
  | cons s p ih =>
    simp only [subtreeAt_cons, child_markFixMe]
    by_cases hc : t.child s = .nil
    · rw [hc]
      rfl
    · by_cases hchild : IR.dataType? (t.child s) = some .kFixUnit
      · obtain ⟨n,l,r,hnode,hn⟩ := dataType?_eq hchild
        have hneeds : ¬ needFixing (.node n l r) = true := by
          intro hneeds
          obtain ⟨q,hq⟩ := needFixing_iff.mp hneeds
          exact hout [s] (List.cons_prefix_cons.mpr ⟨rfl,List.nil_prefix⟩)
            ⟨by simp,hchild,s :: q,List.cons_prefix_cons.mpr ⟨rfl,List.nil_prefix⟩,by rw [holdsFixme_cons, hnode]; exact hq⟩
        rw [hnode, markChild_unit hn, if_neg hneeds]
      · rw [markChild_other hc hchild]
        apply ih
        intro q hq hunit
        exact hout (s :: q) (List.cons_prefix_cons.mpr ⟨rfl,hq⟩) (fixUnit_cons hunit)

theorem DataAtLeaves.markFixMe (h : DataAtLeaves t) : DataAtLeaves (markFixMe t) := by
  induction t with
  | nil => trivial
  | node n l r ihl ihr =>
    have hchild : ∀ {c : IR}, DataAtLeaves c → DataAtLeaves (PolyGlot.markFixMe c) →
        DataAtLeaves (markChild c (PolyGlot.markFixMe c)) := by
      intro c hc hmarked
      cases c with
      | nil => trivial
      | node m cl cr =>
        by_cases hm : m.dataType = .kFixUnit
        · rw [markChild_unit hm]
          split
          · exact ⟨fun _ => ⟨rfl,rfl⟩,trivial,trivial⟩
          · exact hc
        · have hother : IR.dataType? (.node m cl cr) ≠ some .kFixUnit := fun hd => hm (Option.some.inj hd)
          rwa [markChild_other (by simp) hother]
    refine ⟨fun hn => ?_,hchild h.2.1 (ihl h.2.1),hchild h.2.2 (ihr h.2.2)⟩
    obtain ⟨rfl,rfl⟩ := h.1 hn
    exact ⟨rfl,rfl⟩

/-- Either a place lies in no unit, or there is an outermost one that it lies in. -/
theorem fixUnit_cases (t : IR) (p : Path) : (∀ q, q <+: p → ¬ FixUnit t q) ∨
    ∃ q, q <+: p ∧ FixUnit t q ∧ ∀ q', q' <+: q → q' ≠ q → ¬ FixUnit t q' := by
  classical
  by_cases h : ∃ k, FixUnit t (p.take k)
  · refine .inr ⟨p.take (Nat.find h),List.take_prefix _ _,Nat.find_spec h,fun q hq hne hunit => ?_⟩
    have hlt : q.length < Nat.find h := by
      have hle := hq.length_le.trans (List.length_take_le _ _)
      refine lt_of_le_of_ne hle fun heq => hne ?_
      have htake := List.prefix_iff_eq_take.mp (hq.trans (List.take_prefix _ _))
      rw [htake, heq]
    apply Nat.find_min h hlt
    rwa [← List.prefix_iff_eq_take.mp (hq.trans (List.take_prefix _ _))]
  · refine .inl fun q hq hunit => h ⟨q.length,?_⟩
    rwa [← List.prefix_iff_eq_take.mp hq]

theorem subtreeAt_of_leaf {n : IRNode} {q d : Path} (h : t.subtreeAt q = .node n .nil .nil) (hd : d ≠ []) :
    t.subtreeAt (q ++ d) = .nil := by
  rw [subtreeAt_append, h]
  cases d with
  | nil => exact absurd rfl hd
  | cons s d => cases s <;> simp

/-- The placeholders of the marked tree stand at the sites. -/
theorem isAt_markFixMe (h : DataAtLeaves t) : IsAt isFixme (markFixMe t) p ↔ Site t p := by
  rcases fixUnit_cases t p with hnone | ⟨q,hq,hunit,hout⟩
  · have hsame : IsAt isFixme (PolyGlot.markFixMe t) p ↔ IsAt isFixme t p := by
      simp only [IsAt, markFixMe_kept hnone]
    rw [hsame, ← h.holdsFixme_iff]
    constructor
    · exact fun hfix => .inr ⟨hfix,hnone⟩
    · rintro (⟨hunit,_⟩ | ⟨hfix,_⟩)
      · exact absurd hunit (hnone p (List.prefix_refl p))
      · exact hfix
  · obtain ⟨n,l,r,_,hmark⟩ := markFixMe_unit hunit hout
    obtain ⟨d,rfl⟩ := hq
    by_cases hd : d = []
    · subst hd
      rw [List.append_nil]
      exact iff_of_true ⟨_,by rw [hmark]; rfl,rfl⟩ (.inl ⟨hunit,hout⟩)
    · have hbelow : ¬ IsAt isFixme (PolyGlot.markFixMe t) (q ++ d) := by
        rintro ⟨v,hv,_⟩
        rw [subtreeAt_of_leaf hmark hd] at hv
        cases hv
      have hpre : q <+: q ++ d := List.prefix_append q d
      refine iff_of_false hbelow ?_
      rintro (⟨_,hsite⟩ | ⟨_,hsite⟩)
      · exact hsite q hpre (by simpa using Ne.symm hd) hunit
      · exact hsite q hpre hunit

end IR

theorem buildScopeTreeWithSymbolTable_same {cfg : Configuration} {before : TypeSystem} {root : IR} {built : IR × CollectState}
    (h : buildScopeTreeWithSymbolTable cfg before root = .ok built) : built.1.dropScopeIds = root.dropScopeIds := by
  unfold buildScopeTreeWithSymbolTable at h
  obtain ⟨⟨root',scopes⟩,hbuild,h⟩ := bind_ok h
  obtain ⟨⟨_,s⟩,_,h⟩ := bind_ok h
  cases h
  exact buildScopeTreeImpl_same hbuild

section
variable {weak : Bool} {s : CollectState}

def Generated (weak : Bool) (s : CollectState) (n : IRNode) (text : Str) : Prop :=
  ∃ r r', Generator.generateExpression weak s.scopes s.types n SpecialType.kAllTypes r = .ok (text,r')

/-- The places of `ps` get a text, and all else stays. -/
structure TextsAt (weak : Bool) (s : CollectState) (ps : List Path) (t t' : IR) : Prop where
  fixed : ∀ p ∈ ps, ∃ n text, (t.subtreeAt p).root? = some n ∧
    (t'.subtreeAt p).root? = some { n with data := .string text } ∧ Generated weak s n text
  kept : ∀ p ∉ ps, (t'.subtreeAt p).root? = (t.subtreeAt p).root?

theorem applyFix_eq {decision : FixDecision} {t : IR} {r r' : Rand} {fixed : Bool × IR}
    (h : applyFix weak s decision t r = .ok (fixed,r')) : ∃ n l r₁ r₂ rand text,
      t.subtreeAt decision.ir = .node n l r₁ ∧
      Generator.generateExpression weak s.scopes s.types n decision.type rand = .ok (text,r₂) ∧
      fixed = (true,t.replaceAt decision.ir (.node { n with data := .string text } l r₁)) := by
  unfold applyFix at h
  cases hsub : t.subtreeAt decision.ir with
  | nil =>
    simp only [hsub] at h
    cases h
  | node n l r₁ =>
    simp only [hsub] at h
    obtain ⟨_,rand,_,h⟩ := of_bind h
    obtain ⟨text,r₂,hgenerate,h⟩ := of_bind h
    cases h
    exact ⟨n,l,r₁,_,rand,text,rfl,hgenerate,rfl⟩

theorem applyFixes_texts {ps : List Path} {t : IR} (hnodup : ps.Nodup) {r r' : Rand} {e : ValidationError} {t' : IR}
    (h : applyFixes weak s (ps.map fun p => ⟨p,SpecialType.kAllTypes⟩) t r = .ok ((e,t'),r')) :
    TextsAt weak s ps t t' := by
  induction ps generalizing t r with
  | nil =>
    cases h
    exact ⟨by simp,fun _ _ => rfl⟩
  | cons p ps ih =>
    obtain ⟨hp,hnodup⟩ := List.nodup_cons.mp hnodup
    rw [List.map_cons, applyFixes] at h
    obtain ⟨fixed,r₁,happly,h⟩ := of_bind h
    obtain ⟨n,left,right,r₂,rand,text,hn,hgenerate,rfl⟩ := applyFix_eq happly
    rw [if_pos rfl] at h
    have hroot : ∀ q, ((t.replaceAt p (.node { n with data := .string text } left right)).subtreeAt q).root? =
        if q = p then some { n with data := .string text } else (t.subtreeAt q).root? :=
      fun q => root?_replaceAt_node hn
    obtain ⟨hfixed,hkept⟩ := ih hnodup h
    constructor
    · intro q hq
      by_cases hqp : q = p
      · subst hqp
        refine ⟨n,text,by rw [hn]; rfl,?_,rand,r₂,hgenerate⟩
        rw [hkept q hp, hroot, if_pos rfl]
      · obtain ⟨m,text',hm,hres⟩ := hfixed q ((List.mem_cons.mp hq).resolve_left hqp)
        rw [hroot, if_neg hqp] at hm
        exact ⟨m,text',hm,hres⟩
    · intro q hq
      obtain ⟨hqp,hq⟩ := not_or.mp (mt List.mem_cons.mpr hq)
      rw [hkept q hq, hroot, if_neg hqp]

/-- A definition that a node can see is recorded. -/
theorem Visible.recorded {st : ScopeTree} {cur : IRNode} {t : TypeID} {d : Definition} (h : Visible st cur t d) :
    ∃ e ∈ st.entries, e.2 = d.name := by
  obtain ⟨⟨id,scope⟩,hs,hd,_⟩ := h
  have hname : d.name ∈ scope.symbolTable.names :=
    VectorMap.mem_bag (VectorMap.mem_entries_iff.mp (VectorMap.exists_entry hd)) (List.mem_map_of_mem hd)
  exact ⟨(id,d.name),VectorMap.mem_bag (ScopeTree.mem_enclosing hs) (List.mem_map_of_mem hname),rfl⟩

/-- The generator writes `"FIXME"` for a symbol of that name only. -/
theorem Generated.not_fixme {n : IRNode} {text : Str} (h : Generated weak s n text)
    (hsymbols : ∀ e ∈ s.scopes.entries, e.2 ≠ FIXMETAG) : text ≠ FIXMETAG := by
  intro htext
  obtain ⟨r,r',hrun⟩ := h
  obtain ⟨sat,_,hsat,hcore⟩ := Generator.generateExpression_core hrun
  obtain ⟨t,e,_,htype,hrender⟩ := (Generator.generateExpressionByTypeCore_returns collect_sorted hsat 52 _).of_run _ _ _ hcore
  rw [htext] at hrender
  obtain ⟨k,d,_,hname⟩ := htype.variable_of_word (by rw [hrender]; decide) (by rw [hrender]; decide)
    ⟨'F',by rw [hrender]; decide,by decide⟩
  rw [hrender] at hname
  obtain ⟨_,def',hvisible,heq⟩ := mem_collect.mp hname
  obtain ⟨entry,hentry,hentry'⟩ := Visible.recorded hvisible
  exact hsymbols entry hentry (hentry'.trans heq)

end

theorem root?_dropScopeIds {t : IR} {p : Path} : ((IR.dropScopeIds t).subtreeAt p).root? =
    ((t.subtreeAt p).root?).map fun n => { n with scopeId := 0 } := by
  rw [IR.dropScopeIds, subtreeAt_map]
  cases t.subtreeAt p <;> rfl

theorem isAt_of_same {t t' : IR} {p : Path}
    (h : ((IR.dropScopeIds t').subtreeAt p).root? = ((IR.dropScopeIds t).subtreeAt p).root?) :
    IsAt isFixme t' p ↔ IsAt isFixme t p := by
  rw [root?_dropScopeIds, root?_dropScopeIds] at h
  have hsome : ∀ {a b : Option IRNode}, a.map (fun n => { n with scopeId := 0 }) = b.map (fun n => { n with scopeId := 0 }) →
      (∃ v, a = some v ∧ isFixme v = true) → ∃ v, b = some v ∧ isFixme v = true := by
    intro a b hab ha
    obtain ⟨v,rfl,hv⟩ := ha
    cases b with
    | none => cases hab
    | some w =>
      simp only [Option.map_some, Option.some.injEq] at hab
      have hdata : v.data = w.data := by
        injection hab
      exact ⟨w,rfl,by rwa [isFixme, IRNode.holdsString, ← hdata]⟩
  exact ⟨hsome h,hsome h.symm⟩

/-- The texts go to the sites of the tree, whatever the walks have made of it. -/
theorem validate_texts {cfg : Configuration} {before : TypeSystem} {root : IR} {rand rand' : Rand} {v : Validated}
    (hdata : IR.DataAtLeaves root) (hrun : validate cfg before root rand = .ok (v,rand')) :
    ∃ built, buildScopeTreeWithSymbolTable cfg before (markFixMe root) = .ok built ∧
      (∀ p, IsAt isFixme built.1 p ↔ IR.Site root p) ∧ (∀ p, p ∈ outermostPaths isFixme built.1 ↔ IR.Site root p) ∧
      (∀ p, IR.Site root p → ∀ d, d ≠ [] → built.1.subtreeAt (p ++ d) = .nil) ∧
      TextsAt cfg.isWeakType built.2 (outermostPaths isFixme built.1) built.1 v.root := by
  unfold validate at hrun
  obtain ⟨_,_,_,hrun⟩ := of_bind hrun
  obtain ⟨⟨root₁,s⟩,_,hlift,hrun⟩ := of_bind hrun
  obtain ⟨⟨error,root'⟩,_,hfixes,hrun⟩ := of_bind hrun
  cases hrun
  have hbuilt : buildScopeTreeWithSymbolTable cfg before (markFixMe root) = .ok (root₁,s) := (of_lift hlift).1
  have hsame : IR.dropScopeIds root₁ = IR.dropScopeIds (markFixMe root) := buildScopeTreeWithSymbolTable_same hbuilt
  have hsite : ∀ p, IsAt isFixme root₁ p ↔ IR.Site root p := fun p =>
    (isAt_of_same (by rw [hsame])).trans (IR.isAt_markFixMe hdata)
  have hleaf : ∀ p, IR.Site root p → ∀ d, d ≠ [] → root₁.subtreeAt (p ++ d) = .nil := by
    intro p hp d hd
    obtain ⟨n,hn,_⟩ := hdata.markFixMe.holdsFixme_iff.mpr ((IR.isAt_markFixMe hdata).mpr hp)
    have hnil : (IR.dropScopeIds (markFixMe root)).subtreeAt (p ++ d) = .nil := by
      rw [IR.dropScopeIds, subtreeAt_map, IR.subtreeAt_of_leaf hn hd]
      rfl
    rw [← hsame, IR.dropScopeIds, subtreeAt_map, map_eq_nil] at hnil
    exact hnil
  have hdecided : ∀ p, p ∈ outermostPaths isFixme root₁ ↔ IR.Site root p := by
    intro p
    rw [mem_outermostPaths, hsite, and_iff_left_iff_imp]
    intro hp q hq hne hfix
    obtain ⟨d,rfl⟩ := hq
    obtain ⟨n,hn,_⟩ := (hsite _).mpr hp
    rw [hleaf q ((hsite q).mp hfix) d (by simpa using hne)] at hn
    cases hn
  rw [selectFixStrategy_eq] at hfixes
  exact ⟨_,hbuilt,hsite,hdecided,hleaf,applyFixes_texts (outermostPaths_nodup _ _) hfixes⟩

/-- `root'` has a text that the generator made at each site of `root`, and is
elsewhere `root` but for the scope ids. -/
structure Filled (weak : Bool) (s : CollectState) (root root' : IR) : Prop where
  fixed : ∀ p, IR.Site root p → ∃ n text, root'.subtreeAt p = .node n .nil .nil ∧ n.data = .string text ∧
    ∃ cur, Generated weak s cur text
  kept : ∀ p, (∀ q, q <+: p → ¬ IR.Site root q) →
    ((IR.dropScopeIds root').subtreeAt p).root? = ((IR.dropScopeIds root).subtreeAt p).root?

theorem validate_filled {cfg : Configuration} {before : TypeSystem} {root : IR} {rand rand' : Rand} {v : Validated}
    (hdata : IR.DataAtLeaves root) (hrun : validate cfg before root rand = .ok (v,rand')) :
    ∃ built, buildScopeTreeWithSymbolTable cfg before (markFixMe root) = .ok built ∧
      (∀ p, IsAt isFixme built.1 p ↔ IR.Site root p) ∧ (∀ p, p ∈ outermostPaths isFixme built.1 ↔ IR.Site root p) ∧
      TextsAt cfg.isWeakType built.2 (outermostPaths isFixme built.1) built.1 v.root ∧
      Filled cfg.isWeakType built.2 root v.root := by
  obtain ⟨⟨root₁,s⟩,hbuilt,hsite,hdecided,hleaf,htexts⟩ := validate_texts hdata hrun
  have hsame : IR.dropScopeIds root₁ = IR.dropScopeIds (markFixMe root) := buildScopeTreeWithSymbolTable_same hbuilt
  refine ⟨_,hbuilt,hsite,hdecided,htexts,fun p hp => ?_,fun p hp => ?_⟩
  · obtain ⟨n,text,_,hnode,hgenerated⟩ := htexts.fixed p ((hdecided p).mpr hp)
    have hbelow : ∀ sd, v.root.subtreeAt (p ++ [sd]) = .nil := by
      intro sd
      have hnil := hleaf p hp [sd] (by simp)
      have hno : p ++ [sd] ∉ outermostPaths isFixme root₁ := by
        rw [hdecided, ← hsite]
        rintro ⟨m,hm,_⟩
        rw [hnil] at hm
        cases hm
      have hroot := htexts.kept _ hno
      rw [hnil] at hroot
      exact root?_eq_none.mp hroot
    exact ⟨_,text,eq_leaf hnode hbelow,rfl,n,hgenerated⟩
  · have hno : p ∉ outermostPaths isFixme root₁ := mt (hdecided p).mp (hp p (List.prefix_refl p))
    have hunits : ∀ q, q <+: p → ¬ IR.FixUnit root q := by
      intro q hq hunit
      rcases IR.fixUnit_cases root p with hnone | ⟨q',hq',hunit',hout⟩
      · exact hnone q hq hunit
      · exact hp q' hq' (.inl ⟨hunit',hout⟩)
    rw [root?_dropScopeIds, htexts.kept p hno, ← root?_dropScopeIds, hsame, root?_dropScopeIds, IR.markFixMe_kept hunits,
      root?_dropScopeIds]

/-- `root'` has a text that the generator made at each site of `root`, is
elsewhere `root` but for the scope ids, and has no placeholder. -/
structure Repaired (weak : Bool) (s : CollectState) (root root' : IR) : Prop where
  fixed : ∀ p, IR.Site root p → ∃ n text, root'.subtreeAt p = .node n .nil .nil ∧ n.data = .string text ∧
    ∃ cur, Generated weak s cur text
  kept : ∀ p, (∀ q, q <+: p → ¬ IR.Site root q) →
    ((IR.dropScopeIds root').subtreeAt p).root? = ((IR.dropScopeIds root).subtreeAt p).root?
  clean : ∀ p, ¬ IsAt isFixme root' p

/-- Validation puts a text at every site and changes nothing else. -/
theorem validate_repaired {cfg : Configuration} {before : TypeSystem} {root : IR} {rand rand' : Rand} {v : Validated}
    (hdata : IR.DataAtLeaves root)
    (hsymbols : ∀ built, buildScopeTreeWithSymbolTable cfg before (markFixMe root) = .ok built →
      ∀ e ∈ built.2.scopes.entries, e.2 ≠ FIXMETAG)
    (hrun : validate cfg before root rand = .ok (v,rand')) (_hsuccess : v.error = .kSuccess) :
    ∃ built, buildScopeTreeWithSymbolTable cfg before (markFixMe root) = .ok built ∧
      Repaired cfg.isWeakType built.2 root v.root := by
  obtain ⟨⟨root₁,s⟩,hbuilt,hsite,hdecided,htexts,hfilled⟩ := validate_filled hdata hrun
  refine ⟨_,hbuilt,hfilled.fixed,hfilled.kept,fun p hfix => ?_⟩
  by_cases hp : IR.Site root p
  · obtain ⟨n,text,hn,htext,cur,hgenerated⟩ := hfilled.fixed p hp
    obtain ⟨m,hm,hfixme⟩ := hfix
    rw [hn] at hm
    cases hm
    rw [isFixme, IRNode.holdsString, htext, beq_iff_eq, IRData.string.injEq] at hfixme
    exact hgenerated.not_fixme (hsymbols _ hbuilt) hfixme
  · obtain ⟨m,hm,hfixme⟩ := hfix
    rw [htexts.kept p (mt (hdecided p).mp hp)] at hm
    exact hp ((hsite p).mp ⟨m,hm,hfixme⟩)

/-- A variable and a unit behind it that is fixed. -/
def definedThenUsed : IR :=
  programOf (plainNode .kDataDefault
    (plainNode .kVariableDefinition (textLeaf .kVariableType "INT".toList) (textLeaf .kVariableName "x".toList))
    (.node ⟨5,none,.monostate,.kFixUnit,.kScopeDefault,0,9⟩ (textLeaf .kDataDefault FIXMETAG) .nil))

theorem definedThenUsed_repaired : ∃ v rand' built,
    validate (intConfig true) .initial definedThenUsed (Generator.choices [0,10,0,1,0]) = .ok (v,rand') ∧ v.error = .kSuccess ∧
      buildScopeTreeWithSymbolTable (intConfig true) .initial (markFixMe definedThenUsed) = .ok built ∧
      Repaired true built.2 definedThenUsed v.root := by
  have hentries : (buildScopeTreeWithSymbolTable (intConfig true) .initial (markFixMe definedThenUsed)).map
      (fun built => built.2.scopes.entries) = .ok [(1,"x".toList)] := by
    decide +kernel
  have hvalidate : (validate (intConfig true) .initial definedThenUsed (Generator.choices [0,10,0,1,0])).map
      (fun r => r.1.error) = .ok .kSuccess := by
    decide +kernel
  cases hrun : validate (intConfig true) .initial definedThenUsed (Generator.choices [0,10,0,1,0]) with
  | error f =>
    rw [hrun] at hvalidate
    cases hvalidate
  | ok r =>
    rw [hrun] at hvalidate
    have hsuccess : r.1.error = .kSuccess := Except.ok.inj hvalidate
    obtain ⟨built,hbuilt,hrepaired⟩ := @validate_repaired (intConfig true) .initial definedThenUsed _ _ _ (by simp [definedThenUsed, programOf, plainNode, textLeaf, IR.DataAtLeaves,
        IRNode.containData]) (fun built hbuilt e he => by
        rw [hbuilt] at hentries
        have hlist : built.2.scopes.entries = [(1,"x".toList)] := Except.ok.inj hentries
        rw [hlist, List.mem_singleton] at he
        rw [he]
        decide) hrun hsuccess
    exact ⟨r.1,r.2,built,rfl,hsuccess,hbuilt,hrepaired⟩

end PolyGlot
