import PolyGlot.Generator.Typing

set_option autoImplicit false

/-! # Names with several definitions

The walk over the enclosing scopes puts every definition it sees under its own
type, so a name that an inner scope or a later statement defines again stays
under its older types too.
-/
namespace PolyGlot

section
variable (cur : IRNode)

def DefinesBefore (s : Scope) (x : Str) (d : Definition) : Prop :=
  d ∈ s.symbolTable.vals d.type ∧ d.name = x ∧ d.statementId < cur.statementId

/-- `d` is the last definition of `x` before the node, in the innermost scope of
the chain that has one. -/
inductive Resolves (x : Str) : List (ScopeID × Scope) → Definition → Prop
  | here {s : ScopeID × Scope} {chain : List (ScopeID × Scope)} {d : Definition} (hd : DefinesBefore cur s.2 x d)
      (hlast : ∀ d', DefinesBefore cur s.2 x d' → d'.statementId ≤ d.statementId) : Resolves x (s :: chain) d
  | outer {s : ScopeID × Scope} {chain : List (ScopeID × Scope)} {d : Definition}
      (hnone : ∀ d', ¬ DefinesBefore cur s.2 x d') (h : Resolves x chain d) : Resolves x (s :: chain) d

variable {cur} {x : Str} {d : Definition} {chain : List (ScopeID × Scope)}

theorem Resolves.defines (h : Resolves cur x chain d) : ∃ s ∈ chain, DefinesBefore cur s.2 x d := by
  induction h with
  | here hd hlast => exact ⟨_,List.mem_cons_self ..,hd⟩
  | outer hnone h ih =>
    obtain ⟨s,hs,hd⟩ := ih
    exact ⟨s,List.mem_cons_of_mem _ hs,hd⟩

theorem exists_last {s : Scope} (h : DefinesBefore cur s x d) :
    ∃ d, DefinesBefore cur s x d ∧ ∀ d', DefinesBefore cur s x d' → d'.statementId ≤ d.statementId := by
  have hlisted : ∀ d', DefinesBefore cur s x d' ↔
      d' ∈ (s.symbolTable.toList.flatMap Prod.snd).toFinset ∧ DefinesBefore cur s x d' := by
    intro d'
    refine ⟨fun h => ⟨?_,h⟩,And.right⟩
    rw [List.mem_toFinset, List.mem_flatMap]
    exact ⟨_,VectorMap.exists_entry h.1,h.1⟩
  classical
  have hmem : ∀ d', d' ∈ (s.symbolTable.toList.flatMap Prod.snd).toFinset.filter (DefinesBefore cur s x) ↔
      DefinesBefore cur s x d' := fun d' => by rw [Finset.mem_filter, ← hlisted]
  obtain ⟨d,hd,hlast⟩ := Finset.exists_max_image _ Definition.statementId ⟨d,(hmem d).mpr h⟩
  exact ⟨d,(hmem d).mp hd,fun d' hd' => hlast d' ((hmem d').mpr hd')⟩

theorem exists_resolves {s : ScopeID × Scope} (hs : s ∈ chain) (h : DefinesBefore cur s.2 x d) :
    ∃ d, Resolves cur x chain d := by
  induction chain with
  | nil => cases hs
  | cons s' chain ih =>
    by_cases hnone : ∀ d', ¬ DefinesBefore cur s'.2 x d'
    · rcases List.mem_cons.mp hs with rfl | hs
      · exact absurd h (hnone d)
      · obtain ⟨d,hd⟩ := ih hs
        exact ⟨d,.outer hnone hd⟩
    · obtain ⟨d',hd'⟩ := not_forall_not.mp hnone
      obtain ⟨d,hd,hlast⟩ := exists_last hd'
      exact ⟨d,.here hd hlast⟩

end

section
variable (st : ScopeTree) (ts : TypeSystem) (cur : IRNode)

def ListedAsResolved : Prop :=
  ∀ k t x, x ∈ (collectAllVarDefinitionByType st ts cur k).vals t →
    (∃ d, Resolves cur x (st.enclosing cur.scopeId) d) ∧
      ∀ d, Resolves cur x (st.enclosing cur.scopeId) d → d.type = t

/-- The visible definitions of one name whose types are known have one type, and
a name with such a definition resolves to one. -/
structure OneTypeEach : Prop where
  same : ∀ d d', Visible st cur d.type d → Visible st cur d'.type d' → d.name = d'.name →
    (ts.getTypePtrByID d.type).isSome → (ts.getTypePtrByID d'.type).isSome → d.type = d'.type
  known : ∀ d d', Visible st cur d.type d → (ts.getTypePtrByID d.type).isSome →
    Resolves cur d.name (st.enclosing cur.scopeId) d' → (ts.getTypePtrByID d'.type).isSome

variable {st ts cur} {t : TypeID} {x : Str} {d : Definition}

theorem Visible.type_eq (h : Visible st cur t d) : d.type = t := by
  obtain ⟨s,hs,hd,_⟩ := h
  exact (st.ok.tables s.1 s.2 (ScopeTree.mem_enclosing hs)).keyed t d hd

theorem Resolves.visible (h : Resolves cur x (st.enclosing cur.scopeId) d) :
    Visible st cur d.type d ∧ d.name = x := by
  obtain ⟨s,hs,hd,hname,hless⟩ := h.defines
  exact ⟨⟨s,hs,hd,hless⟩,hname⟩

theorem Visible.exists_resolves (h : Visible st cur d.type d) :
    ∃ d', Resolves cur d.name (st.enclosing cur.scopeId) d' := by
  obtain ⟨s,hs,hd,hless⟩ := h
  exact PolyGlot.exists_resolves hs ⟨hd,rfl,hless⟩

/-- A visible definition of a known type is listed under it. -/
theorem Visible.listed (h : Visible st cur d.type d) (hknown : (ts.getTypePtrByID d.type).isSome) :
    ∃ k, d.name ∈ (collectAllVarDefinitionByType st ts cur k).vals d.type := by
  obtain ⟨v,hv⟩ := Option.isSome_iff_exists.mp hknown
  obtain ⟨k,hk⟩ : ∃ k, k ∈ collectedAs v.kind := by cases v.kind <;> exact ⟨_,List.mem_cons_self ..⟩
  exact ⟨k,mem_collect.mpr ⟨⟨v,hv,hk⟩,d,h,rfl⟩⟩

end

/-- The names collected for a node resolve to the types they are listed under
exactly when no name is visible with two known types, or hidden by a definition
of an unknown one. -/
theorem collected_resolve_iff (st : ScopeTree) (ts : TypeSystem) (cur : IRNode) :
    ListedAsResolved st ts cur ↔ OneTypeEach st ts cur := by
  constructor
  · intro h
    have hresolved : ∀ d r, Visible st cur d.type d → (ts.getTypePtrByID d.type).isSome →
        Resolves cur d.name (st.enclosing cur.scopeId) r → r.type = d.type := by
      intro d r hd hknown hr
      obtain ⟨k,hlisted⟩ := hd.listed hknown
      exact (h k d.type d.name hlisted).2 r hr
    constructor
    · intro d d' hd hd' hname hknown hknown'
      obtain ⟨r,hr⟩ := hd.exists_resolves
      rw [← hresolved d r hd hknown hr, hresolved d' r hd' hknown' (hname ▸ hr)]
    · intro d r hd hknown hr
      rwa [hresolved d r hd hknown hr]
  · rintro ⟨hsame,hknown⟩ k t x hx
    obtain ⟨⟨v,hv,_⟩,d,hd,rfl⟩ := mem_collect.mp hx
    obtain rfl := hd.type_eq
    have hsome : (ts.getTypePtrByID d.type).isSome := Option.isSome_of_eq_some hv
    refine ⟨hd.exists_resolves,fun r hr => ?_⟩
    obtain ⟨hvisible,hname⟩ := hr.visible
    exact hsame r d hvisible hd hname (hknown d r hd hsome hr) hsome

def blockTypes : TypeSystem := (TypeSystem.construct (intConfig true) .initial).createCompoundType "S".toList []

def blockScopes : ScopeTree :=
  let st := (Generator.globalScope [⟨"x".toList,10,1⟩]).genScope .kScopeStatement (some 1) (by
    rintro p ⟨⟩
    decide +kernel)
  (st.addDefinition 2 ⟨"x".toList,11,2⟩).toOption.getD st

def blockNode : IRNode := { Generator.useNode with scopeId := 2 }

theorem hiddenName_listed : "x".toList ∈ (collectAllVarDefinitionByType blockScopes blockTypes blockNode .simple).vals 10 ∧
    ¬ ListedAsResolved blockScopes blockTypes blockNode := by
  have hlisted : "x".toList ∈ (collectAllVarDefinitionByType blockScopes blockTypes blockNode .simple).vals 10 := by
    decide +kernel
  refine ⟨hlisted,fun h => ?_⟩
  have htable : (blockScopes.enclosing 2).head?.map (fun s => s.2.symbolTable.toList) =
      some [(11,[⟨"x".toList,11,2⟩])] := by decide +kernel
  obtain ⟨s,hs,htable⟩ := Option.map_eq_some_iff.mp htable
  obtain ⟨chain,hchain⟩ := List.head?_eq_some_iff.mp hs
  have honly : ∀ d, DefinesBefore blockNode s.2 "x".toList d → d = ⟨"x".toList,11,2⟩ := by
    rintro d ⟨hd,_,_⟩
    have hentry := VectorMap.exists_entry hd
    rw [htable, List.mem_singleton, Prod.mk.injEq] at hentry
    rw [hentry.2, List.mem_singleton] at hd
    exact hd
  have hinner : DefinesBefore blockNode s.2 "x".toList ⟨"x".toList,11,2⟩ := by
    refine ⟨?_,rfl,by decide⟩
    rw [VectorMap.vals_of_entry (l := [⟨"x".toList,11,2⟩]) (by rw [htable]; exact List.mem_singleton_self _)]
    exact List.mem_singleton_self _
  have hresolves : Resolves blockNode "x".toList (blockScopes.enclosing 2) ⟨"x".toList,11,2⟩ := by
    rw [hchain]
    exact .here hinner fun d hd => by rw [honly d hd]
  cases (h .simple 10 _ hlisted).2 _ hresolves

end PolyGlot
