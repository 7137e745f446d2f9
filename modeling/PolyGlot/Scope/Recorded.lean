import PolyGlot.Scope.Survival

set_option autoImplicit false

/-! # The definitions that are recorded

Of a type that was there before the collection began, the symbol tables hold what
the visits of the tree say: a variable under its own id, a parameter under the id
of its function.
-/
namespace PolyGlot

open BinaryTree Prog

/-- A type of the configuration, as against those that a program defines and those
that stand for all types of a kind. -/
def BasicType (types : TypeSystem) (t : TypeID) : Prop := 10 ≤ t ∧ types.isBasicType t = true

def ScopeTree.Holds (st : ScopeTree) (id : ScopeID) (d : Definition) : Prop :=
  ∃ s, st.getScopeById id = some s ∧ d ∈ s.symbolTable.vals d.type

/-- The type that a variable gets in weak mode, where it is one of `types`. -/
def variableType (cfg : Configuration) (types : TypeSystem) (cur : IR) : TypeID :=
  if cur.typeNode = .nil then SpecialType.kAnyType else typeIDOf cfg types cur.typeNode

/-- The definitions of variables and parameters that a visit records, with their
scopes, where their types are among `types`. -/
def Visit.definitions (cfg : Configuration) (types : TypeSystem) (v : Visit) : List (ScopeID × Definition) :=
  match v.kind with
  | .kClassDefinition => []
  | .kFunctionDefinition =>
    if v.cur.functionText ≠ [] ∧ v.cur.functionBody ≠ .nil then
      v.cur.functionArguments.map fun arg =>
        (v.cur.functionBody.scopeId,⟨arg.argumentText,typeIDOf cfg types arg.typeNode,v.cur.statementId⟩)
    else []
  | _ => v.cur.variableNames.map fun name =>
    (v.cur.scopeId,⟨name.render,variableType cfg types v.cur,name.statementId⟩)

section Types
variable {types : TypeSystem} {cfg : Configuration} {x : Str} {t : TypeID}

theorem isBasicType_iff : types.isBasicType t = true ↔ ∃ v, types.statics.simple[t]? = some v := by
  rw [TypeTables.isBasicType, Std.TreeMap.contains_eq_isSome_getElem?, Option.isSome_iff_exists]

/-- A name of a basic type is found in the first table. -/
theorem getTypeIDByStr_basicType (ht : types.isBasicType t = true) : types.getTypeIDByStr cfg x = t ↔
    TypeTables.findNamed cfg x types.statics.simple.toList = some t := by
  obtain ⟨w,hw⟩ := isBasicType_iff.mp ht
  cases hfind : TypeTables.findNamed cfg x types.statics.simple.toList with
  | some id => simp [TypeTables.getTypeIDByStr, TypeTables.entries, hfind]
  | none =>
    simp only [reduceCtorEq, iff_false]
    intro heq
    have hptr : types.getTypePtrByID t = some w := by
      rw [TypeTables.getTypePtrByID, hw]
      rfl
    rcases types.getTypeIDByStr_cases cfg x with ⟨v,hmem,hname⟩ | ⟨hnone,_⟩
    · have hget := TypeSystem.found_iff.mp (TypeTables.mem_entries.mp hmem)
      rw [heq, hptr] at hget
      cases hget
      exact TypeTables.findNamed_none hfind (t, v) (Std.TreeMap.mem_toList_iff_getElem?_eq_some.mpr hw) hname
    · rw [heq] at hnone
      rw [hnone, TypeSystem.getTypePtrByID_kNotExist] at hptr
      cases hptr

theorem BasicType.lt (h : BasicType types t) : t < types.statics.nextId := by
  obtain ⟨v,hv⟩ := isBasicType_iff.mp h.2
  exact (types.statics_ok.bound t v hv).2

/-- The lookups of basic types agree where the first table does. -/
theorem getTypeIDByStr_eq_iff {types' : TypeSystem} (hsame : types'.statics.simple = types.statics.simple)
    (ht : BasicType types t) : types'.getTypeIDByStr cfg x = t ↔ types.getTypeIDByStr cfg x = t := by
  have ht' : types'.isBasicType t = true := by
    rw [TypeTables.isBasicType, hsame]
    exact ht.2
  rw [getTypeIDByStr_basicType ht', getTypeIDByStr_basicType ht.2, hsame]

end Types

structure Gains (τ : TypeID) (ds : List (ScopeID × Definition)) (s t : CollectState) : Prop where
  simple : t.types.statics.simple = s.types.statics.simple
  holds : ∀ i d, d.type = τ → (t.scopes.Holds i d ↔ s.scopes.Holds i d ∨ (i, d) ∈ ds)

section Collectors
variable {cfg : Configuration} {types : TypeSystem} {τ : TypeID} {ds ds' : List (ScopeID × Definition)}
  {s t u : CollectState} {cur : IR}

theorem Gains.refl : Gains τ [] s s := ⟨rfl,by simp⟩

theorem Gains.trans (h : Gains τ ds s t) (h' : Gains τ ds' t u) : Gains τ (ds ++ ds') s u := by
  refine ⟨h'.simple.trans h.simple,fun i d hd => ?_⟩
  rw [h'.holds i d hd, h.holds i d hd, List.mem_append, or_assoc]

/-- Definitions of other types do not count. -/
theorem Gains.congr (h : Gains τ ds s t) (hsame : ∀ i d, d.type = τ → ((i, d) ∈ ds ↔ (i, d) ∈ ds')) :
    Gains τ ds' s t :=
  ⟨h.simple,fun i d hd => by rw [h.holds i d hd, hsame i d hd]⟩

theorem addDefinition_attains {id : ScopeID} {d : Definition} (hτ : 10 ≤ τ) :
    Attains (addDefinition id d) s fun _ t => Gains τ [(id, d)] s t := by
  constructor
  intro _ t hrun
  obtain ⟨sc,hsc,htypes,hscopes⟩ := addDefinition_run hrun
  refine ⟨by rw [htypes],fun i d' hd' => ?_⟩
  simp only [ScopeTree.Holds, hscopes, List.mem_singleton, Prod.mk.injEq]
  by_cases hi : id = i
  · subst hi
    have hadd : d' ∈ (sc.addDefinition d).symbolTable.vals d'.type ↔ d' ∈ sc.symbolTable.vals d'.type ∨ d' = d := by
      rw [Scope.mem_addDefinition]
      apply or_congr_right
      constructor
      · exact fun h => h.2.2
      · rintro rfl
        refine ⟨fun hnone => ?_,rfl,rfl⟩
        rw [hnone] at hd'
        exact absurd (hd' ▸ hτ) (by decide)
    simp [hsc, hadd]
  · simp [hi, Ne.symm hi]

theorem forM_addDefinition_attains {α : Type} {id : ScopeID} (f : α → Definition) (l : List α) (hτ : 10 ≤ τ) :
    Attains (l.forM fun a => addDefinition id (f a)) s fun _ t => Gains τ (l.map fun a => (id, f a)) s t := by
  apply Attains.forM (P := fun before t => Gains τ (before.map fun a => (id, f a)) s t) l .refl
  intro before a t _ ht
  apply (addDefinition_attains hτ).mono
  intro _ u hu
  simpa using ht.trans hu

/-- A new type is none of the basic types. -/
theorem addCreated_attains {types' : TypeSystem} {id : ScopeID} {name : Str} {statementId : StatementID}
    (hτ : BasicType types τ) (hsimple : s.types.statics.simple = types.statics.simple)
    (hcreated : types'.statics.simple = s.types.statics.simple) :
    Attains (addDefinition id ⟨name,s.types.statics.nextId,statementId⟩) { s with types := types' }
      fun _ t => Gains τ [] s t := by
  have hs : BasicType s.types τ := by
    refine ⟨hτ.1,?_⟩
    rw [TypeTables.isBasicType, hsimple]
    exact hτ.2
  apply (addDefinition_attains hτ.1).mono
  intro _ t ht
  have hother : Gains τ [] { s with types := types' } t := by
    apply ht.congr
    intro i d hd
    simp only [List.mem_singleton, Prod.mk.injEq, List.not_mem_nil, iff_false, not_and]
    rintro _ rfl
    exact hs.lt.ne' hd
  exact ⟨hother.simple.trans hcreated,hother.holds⟩

theorem simpleType_attains (hτ : BasicType types τ) (hsimple : s.types.statics.simple = types.statics.simple) :
    Attains (simpleType cfg cur) s fun type t => t = s ∧ (type = τ ↔ variableType cfg types cur = τ) := by
  have hany : SpecialType.kAnyType ≠ τ := by
    intro h
    exact absurd (h ▸ hτ.1) (by decide)
  have hnone : SpecialType.kNotExist ≠ τ := by
    intro h
    exact absurd (h ▸ hτ.1) (by decide)
  have htype : typeIDOf cfg s.types cur.typeNode = τ ↔ typeIDOf cfg types cur.typeNode = τ :=
    getTypeIDByStr_eq_iff hsimple hτ
  unfold simpleType variableType
  rw [IR.typeNode] at htype ⊢
  by_cases hnil : cur.searchByDataType .kVariableType .kDataDefault = .nil
  · rw [if_pos hnil, if_pos hnil]
    exact Attains.pure ⟨rfl,Iff.rfl⟩
  · rw [if_neg hnil, if_neg hnil]
    apply Attains.get_bind
    by_cases hweak : typeIDOf cfg s.types (cur.searchByDataType .kVariableType .kDataDefault) =
        SpecialType.kNotExist ∧ cfg.isWeakType = true
    · rw [if_pos hweak]
      refine Attains.pure ⟨rfl,?_⟩
      rw [← htype, hweak.1]
      exact iff_of_false hany hnone
    · rw [if_neg hweak]
      apply Attains.assertThat.bind
      rintro _ t ⟨_,rfl⟩
      exact Attains.pure ⟨rfl,htype⟩

theorem collectSimpleVariableDefinition_attains {v : Visit} (hclass : v.kind ≠ .kClassDefinition)
    (hfunction : v.kind ≠ .kFunctionDefinition) (hτ : BasicType types τ)
    (hsimple : s.types.statics.simple = types.statics.simple) :
    Attains (collectSimpleVariableDefinition cfg v.cur) s fun _ t => Gains τ (v.definitions cfg types) s t := by
  have hdefinitions : v.definitions cfg types = v.cur.variableNames.map fun name =>
      (v.cur.scopeId,⟨name.render,variableType cfg types v.cur,name.statementId⟩) := by
    unfold Visit.definitions
    split
    · exact absurd ‹_› hclass
    · exact absurd ‹_› hfunction
    · rfl
  rw [hdefinitions]
  unfold collectSimpleVariableDefinition
  apply (simpleType_attains hτ hsimple).bind
  rintro type _ ⟨rfl,htype⟩
  apply (forM_addDefinition_attains (fun name : IR => ⟨name.render,type,name.statementId⟩) _ hτ.1).mono
  intro _ u hu
  apply hu.congr
  intro i d hd
  simp only [List.mem_map, Prod.mk.injEq, IR.variableNames]
  constructor
  · rintro ⟨name,hname,hi,rfl⟩
    exact ⟨name,hname,hi,by rw [htype.mp hd, ← show type = τ from hd]⟩
  · rintro ⟨name,hname,hi,rfl⟩
    exact ⟨name,hname,hi,by rw [htype.mpr hd, ← show variableType cfg types v.cur = τ from hd]⟩

def NewType (s : CollectState) (id : TypeID) (t : CollectState) : Prop :=
  id = s.types.statics.nextId ∧ ∃ types' : TypeSystem, types'.statics.simple = s.types.statics.simple ∧
    t = { s with types := types' }

theorem createFunctionType_attains (name : Str) (returnType : TypeID) (args : List (TypeID × Str)) :
    Attains (createFunctionType name returnType args) s (NewType s) := by
  constructor
  intro id t hrun
  cases hrun
  exact ⟨rfl,s.types.createFunctionType name returnType (args.map Prod.fst) (args.map Prod.snd),rfl,rfl⟩

theorem createCompoundType_attains (name : Str) (members : List (TypeID × Str)) :
    Attains (createCompoundType name members) s (NewType s) := by
  constructor
  intro id t hrun
  cases hrun
  exact ⟨rfl,s.types.createCompoundType name members,rfl,rfl⟩

theorem membersOf_attains (id : ScopeID) : Attains (membersOf id) s fun _ t => t = s := by
  constructor
  intro members t hrun
  unfold membersOf at hrun
  split at hrun
  · cases hrun
  · cases hrun
    rfl

/-- A class is recorded after its body, under the type that was just made. -/
theorem collectStructureDefinition_after {inner : IR → Collect Unit} {R : CollectState → Prop}
    {Q : Unit → CollectState → Prop} (hinner : Attains (inner cur.classBody) s fun _ => R)
    (hadd : ∀ (name : Str) (t : CollectState) (types' : TypeSystem), R t →
      types'.statics.simple = t.types.statics.simple →
      Attains (addDefinition cur.scopeId ⟨name,t.types.statics.nextId,cur.statementId⟩) { t with types := types' } Q) :
    Attains (collectStructureDefinition inner cur) s Q := by
  unfold collectStructureDefinition
  apply Attains.assertThat.bind
  rintro _ _ ⟨_,rfl⟩
  apply Attains.assertThat.bind
  rintro _ _ ⟨_,rfl⟩
  apply Attains.assertThat.bind
  rintro _ _ ⟨_,rfl⟩
  apply (Attains.lift ..).bind
  rintro name _ ⟨_,rfl⟩
  apply hinner.bind
  intro _ t ht
  apply (membersOf_attains ..).bind
  rintro members _ rfl
  apply (createCompoundType_attains ..).bind
  rintro id _ ⟨rfl,types',hsame,rfl⟩
  exact hadd _ _ types' ht hsame

theorem collectStructureDefinition_attains {inner : IR → Collect Unit} (hτ : BasicType types τ)
    (hsimple : s.types.statics.simple = types.statics.simple)
    (hinner : Attains (inner cur.classBody) s fun _ t => Gains τ ds s t) :
    Attains (collectStructureDefinition inner cur) s fun _ t => Gains τ ds s t := by
  apply collectStructureDefinition_after hinner
  intro name t types' ht hsame
  apply (addCreated_attains hτ (ht.simple.trans hsimple) hsame).mono
  intro _ u hu
  simpa using ht.trans hu

theorem checkArguments_attains (args : List (TypeID × Str)) :
    Attains (args.forM fun a => assertThat ((s.types.getTypePtrByID a.1).isSome = true) .nullDeref : Collect Unit) s
      fun _ t => t = s := by
  apply Attains.forM (P := fun _ t => t = s) _ rfl
  rintro before a t _ rfl
  apply Attains.assertThat.mono
  exact fun _ _ h => h.2

theorem collectFunctionDefinition_attains {inner : IR → Collect Unit} (hτ : BasicType types τ)
    (hsimple : s.types.statics.simple = types.statics.simple) (hds : cur.functionText = [] ∨ cur.functionBody = .nil → ds = [])
    (hinner : cur.functionText ≠ [] → ∀ t, t.types.statics.simple = types.statics.simple →
      Attains (inner cur.functionBody) t fun _ u => Gains τ ds t u) :
    Attains (collectFunctionDefinition cfg inner cur) s
      fun _ t => Gains τ (Visit.definitions cfg types ⟨.kFunctionDefinition,cur⟩ ++ ds) s t := by
  unfold collectFunctionDefinition
  apply Attains.assertThat.bind
  rintro _ _ ⟨_,rfl⟩
  by_cases htext : cur.functionText = []
  · have hnone : Visit.definitions cfg types ⟨.kFunctionDefinition,cur⟩ ++ ds = [] := by
      rw [Visit.definitions, if_neg fun h => h.1 htext, hds (.inl htext)]
      rfl
    change Attains (if cur.functionText = [] then _ else _) _ _
    rw [if_pos htext, hnone]
    exact Attains.pure .refl
  · change Attains (if cur.functionText = [] then _ else _) _ _
    rw [if_neg htext]
    apply Attains.get_bind
    apply (Attains.lift ..).bind
    rintro args u ⟨hargs,rfl⟩
    obtain ⟨_,rfl⟩ := argumentsOf_ok_iff.mp hargs
    apply (checkArguments_attains _).bind
    rintro _ v rfl
    have hfunction : Attains (onlyIf (returnTypeID cfg v.types cur.returnType ≠ SpecialType.kNotExist) do
        let id ← createFunctionType cur.functionText (returnTypeID cfg v.types cur.returnType)
          (cur.functionArguments.map fun arg => (typeIDOf cfg v.types arg.typeNode,arg.argumentText))
        addDefinition cur.scopeId ⟨cur.functionText,id,cur.functionName.statementId⟩) v
        fun _ t => Gains τ [] v t := by
      apply Attains.onlyIf
      · intro _
        apply (createFunctionType_attains ..).bind
        rintro id _ ⟨rfl,types',hsame,rfl⟩
        exact addCreated_attains hτ hsimple hsame
      · exact fun _ => .refl
    apply hfunction.bind
    intro _ t ht
    have hsimple' : t.types.statics.simple = types.statics.simple := ht.simple.trans hsimple
    apply Attains.onlyIf
    · intro hbody
      apply (forM_addDefinition_attains (fun a : TypeID × Str => ⟨a.2,a.1,cur.statementId⟩) _ hτ.1).bind
      intro _ u hu
      apply (hinner htext u (hu.simple.trans hsimple')).mono
      intro _ w hw
      apply ((ht.trans hu).trans hw).congr
      intro i d hd
      have hargs : ∀ arg : IR, typeIDOf cfg v.types arg.typeNode = τ ↔ typeIDOf cfg types arg.typeNode = τ :=
        fun arg => getTypeIDByStr_eq_iff hsimple hτ
      rw [Visit.definitions, if_pos ⟨htext,hbody⟩, List.nil_append, List.mem_append, List.mem_append]
      apply or_congr_left
      simp only [List.map_map, List.mem_map, Function.comp_apply, Prod.mk.injEq]
      constructor
      · rintro ⟨arg,harg,hi,rfl⟩
        exact ⟨arg,harg,hi,by rw [(hargs arg).mp hd, ← show typeIDOf cfg v.types arg.typeNode = τ from hd]⟩
      · rintro ⟨arg,harg,hi,rfl⟩
        exact ⟨arg,harg,hi,by rw [(hargs arg).mpr hd, ← show typeIDOf cfg types arg.typeNode = τ from hd]⟩
    · intro hbody
      have hnone : Visit.definitions cfg types ⟨.kFunctionDefinition,cur⟩ ++ ds = [] := by
        rw [Visit.definitions, if_neg fun h => hbody h.2, hds (.inr (not_not.mp hbody))]
        rfl
      rw [hnone]
      exact ht

def GainsVisits (cfg : Configuration) (types : TypeSystem) (τ : TypeID) (inner : IR → Collect Unit)
    (vs : IR → List Visit) : Prop :=
  ∀ body s, s.types.statics.simple = types.statics.simple →
    Attains (inner body) s fun _ t => Gains τ ((vs body).flatMap (Visit.definitions cfg types)) s t

theorem collectDefinition_attains {inner : IR → Collect Unit} {vs : IR → List Visit} (hnil : vs .nil = [])
    (hinner : GainsVisits cfg types τ inner vs) (hτ : BasicType types τ) :
    GainsVisits cfg types τ (collectDefinition cfg inner) (visitsFrom vs) := by
  intro t
  induction t with
  | nil => exact fun s _ => Attains.pure .refl
  | node n l r ihl ihr =>
    intro s hsimple
    by_cases hn : isDefinition n = true
    · by_cases hclass : IR.findDefineType (.node n l r) = .kClassDefinition
      · rw [collectDefinition_class hn hclass, visitsFrom_class hn hclass, List.flatMap_append]
        apply (collectStructureDefinition_attains hτ hsimple (hinner _ s hsimple)).mono
        intro _ t ht
        simpa [Visit.definitions] using ht
      · by_cases hfunction : IR.findDefineType (.node n l r) = .kFunctionDefinition
        · rw [collectDefinition_function hn hfunction, visitsFrom_function hn hfunction, List.flatMap_cons]
          apply collectFunctionDefinition_attains hτ hsimple
          · rintro (htext | hbody)
            · rw [if_pos htext]
              rfl
            · rw [hbody, hnil, ite_self]
              rfl
          · intro htext t ht
            rw [if_neg htext]
            exact hinner _ t ht
        · have hsimple' : Attains (collectSimpleVariableDefinition cfg (.node n l r)) s _ :=
            collectSimpleVariableDefinition_attains (v := ⟨IR.findDefineType (.node n l r),.node n l r⟩) hclass hfunction
              hτ hsimple
          rw [collectDefinition_variable hn hclass hfunction, visitsFrom_variable hn hclass hfunction]
          simpa using hsimple'
    · rw [collectDefinition, if_neg hn, visitsFrom_other hn, List.flatMap_append]
      apply (ihl s hsimple).bind
      intro _ t ht
      apply (ihr t (ht.simple.trans hsimple)).mono
      intro _ u hu
      exact ht.trans hu

theorem createSymbolTableRec_attains {fuel recursiveCounter : ℕ} {t : IR} (hcounter : 1 ≤ recursiveCounter)
    (hsmall : recursiveCounter = 1 → t.getChildNum ≤ 250) (hτ : BasicType types τ)
    (hsimple : s.types.statics.simple = types.statics.simple) :
    Attains (createSymbolTableRec cfg fuel recursiveCounter t) s
      fun _ u => Gains τ ((visitsRec fuel t).flatMap (Visit.definitions cfg types)) s u := by
  induction fuel generalizing recursiveCounter t s with
  | zero => exact Attains.fail
  | succ fuel ih =>
    have hgo : ¬ (recursiveCounter = 1 ∧ (t.getChildNum > 250 ∨ t.getChildNum > 1500)) := by omega
    rw [createSymbolTableRec, if_neg hgo, visitsRec]
    apply Attains.onlyIf
    · intro _
      apply collectDefinition_attains (visitsRec_nil fuel) ?_ hτ t s hsimple
      intro body s hs
      exact ih (by omega) (by omega) hs
    · intro hdef
      rw [visitsFrom_eq_nil (by simpa using hdef)]
      exact .refl

/-- The two parts of a build that succeeds. -/
theorem buildScopeTreeWithSymbolTable_run {before : TypeSystem} {root root' : IR} (hroot : IR.isScoped root = true)
    (hbuild : buildScopeTreeWithSymbolTable cfg before root = .ok (root',s)) : ∃ scopes, ScopesMirror root root' scopes ∧
      buildSymbolTables cfg root' ⟨TypeSystem.construct cfg before,scopes⟩ = .ok ((),s) := by
  obtain ⟨root₁,scopes,hrun,hbuilt⟩ := buildTree_built hroot
  have hmirror := hbuilt.scopesMirror
  rw [buildScopeTreeWithSymbolTable_eq hrun] at hbuild
  cases hsymbols : buildSymbolTables cfg root₁ ⟨TypeSystem.construct cfg before,scopes⟩ with
  | error e =>
    rw [hsymbols] at hbuild
    cases hbuild
  | ok r =>
    rw [hsymbols] at hbuild
    cases hbuild
    exact ⟨scopes,hmirror,hsymbols⟩

/-- After the collection the symbol tables hold of each basic type what the visits
of the tree record, and nothing else. -/
theorem buildScopeTreeWithSymbolTable_holds {before : TypeSystem} {root root' : IR} (hroot : IR.isScoped root = true)
    (hsmall : root.getChildNum ≤ 250) (hbuild : buildScopeTreeWithSymbolTable cfg before root = .ok (root',s)) :
    root'.dropScopeIds = root.dropScopeIds ∧ ∀ τ, BasicType (TypeSystem.construct cfg before) τ →
      s.types.statics.simple = (TypeSystem.construct cfg before).statics.simple ∧ ∀ i d, d.type = τ →
        (s.scopes.Holds i d ↔ ∃ v ∈ visits root', (i, d) ∈ v.definitions cfg (TypeSystem.construct cfg before)) := by
  obtain ⟨scopes,hmirror,hsymbols⟩ := buildScopeTreeWithSymbolTable_run hroot hbuild
  have hempty : ∀ i d, ¬ scopes.Holds i d := by
    rintro i d ⟨sc,hsc,hd⟩
    rw [hmirror.symbolTable_eq hsc] at hd
    simp at hd
  refine ⟨hmirror.same,fun τ hτ => ?_⟩
  have hgains : Gains τ ((visits root').flatMap (Visit.definitions cfg (TypeSystem.construct cfg before)))
      ⟨TypeSystem.construct cfg before,scopes⟩ s :=
    (createSymbolTableRec_attains le_rfl (fun _ => hmirror.getChildNum_eq ▸ hsmall) hτ rfl).of_run _ _ hsymbols
  refine ⟨hgains.simple,fun i d hd => ?_⟩
  rw [hgains.holds i d hd, List.mem_flatMap]
  simp [hempty]

end Collectors

end PolyGlot
