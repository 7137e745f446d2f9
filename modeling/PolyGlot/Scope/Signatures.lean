import PolyGlot.Scope.Recorded

set_option autoImplicit false

/-! # The types that definitions become

A function and a class become types with the collection of their symbols. The
types that a collection adds are those of the functions and classes visited, with
their parameters and members as the program has them.
-/
namespace PolyGlot

open BinaryTree Prog

def SameBasic (types : TypeSystem) (a b : TypeID) : Prop := ∀ τ, BasicType types τ → (a = τ ↔ b = τ)

/-- `f` is the function that is visited, and its name is recorded under it. -/
structure Visit.DeclaresFunction (cfg : Configuration) (types : TypeSystem) (st : ScopeTree) (v : Visit)
    (f : FunctionType) : Prop where
  kind : v.kind = .kFunctionDefinition
  name : f.name = v.cur.functionText
  returns : SameBasic types f.returnType (returnTypeID cfg types v.cur.returnType)
  argTypes : List.Forall₂ (fun t arg => SameBasic types t (typeIDOf cfg types arg.typeNode)) f.argTypes
    v.cur.functionArguments
  argNames : f.argNames = v.cur.functionArguments.map IR.argumentText
  holds : st.Holds v.cur.scopeId ⟨f.name,f.typeId,v.cur.functionName.statementId⟩

/-- `c` is the class that is visited, with what `recorded` has in its body as its
members, and its name is recorded under it. -/
structure Visit.DeclaresClass (types : TypeSystem) (st : ScopeTree) (recorded : ScopeID → Definition → Prop) (v : Visit)
    (c : CompoundType) : Prop where
  kind : v.kind = .kClassDefinition
  name : v.cur.classText = .ok c.name
  members : ∀ τ, BasicType types τ → ∀ n, n ∈ c.members.vals τ ↔
    ∃ d, recorded v.cur.classBody.scopeId d ∧ d.type = τ ∧ d.name = n
  holds : st.Holds v.cur.scopeId ⟨c.name,c.typeId,v.cur.statementId⟩

def Visit.Declares (cfg : Configuration) (types : TypeSystem) (st : ScopeTree) (recorded : ScopeID → Definition → Prop)
    (v : Visit) : VarType → Prop
  | .function f => v.DeclaresFunction cfg types st f
  | .compound c => v.DeclaresClass types st recorded c
  | _ => False

/-- The visits that make a type: those of classes, and of functions that have a
name and return a basic type. -/
def Visit.MakesType (cfg : Configuration) (types : TypeSystem) (v : Visit) : Prop :=
  match v.kind with
  | .kClassDefinition => True
  | .kFunctionDefinition => v.cur.functionText ≠ [] ∧ BasicType types (returnTypeID cfg types v.cur.returnType)
  | _ => False

structure Keeps (s t : CollectState) : Prop where
  simple : t.types.statics.simple = s.types.statics.simple
  types : ∀ id v, s.types.getTypePtrByID id = some v → t.types.getTypePtrByID id = some v
  holds : ∀ i d, s.scopes.Holds i d → t.scopes.Holds i d

def DefinedBy (cfg : Configuration) (types : TypeSystem) (vs : List Visit) (i : ScopeID) (d : Definition) : Prop :=
  ∃ v ∈ vs, (i, d) ∈ v.definitions cfg types

def RecordedBy (cfg : Configuration) (types : TypeSystem) (s : CollectState) (before : List Visit) (i : ScopeID)
    (d : Definition) : Prop := s.scopes.Holds i d ∨ DefinedBy cfg types before i d

structure Declared (cfg : Configuration) (types : TypeSystem) (vs : List Visit) (s t : CollectState) : Prop where
  gains : ∀ τ, BasicType types τ → Gains τ (vs.flatMap (Visit.definitions cfg types)) s t
  keeps : Keeps s t
  made : ∀ id ty, t.types.getTypePtrByID id = some ty → s.types.getTypePtrByID id = some ty ∨
    ∃ before v after, vs = before ++ v :: after ∧ v.Declares cfg types t.scopes (RecordedBy cfg types s before) ty
  declared : ∀ before v after, vs = before ++ v :: after → v.MakesType cfg types →
    ∃ ty, t.types.getTypePtrByID ty.typeId = some ty ∧
      v.Declares cfg types t.scopes (RecordedBy cfg types s before) ty

section
variable {cfg : Configuration} {types : TypeSystem} {vs ws : List Visit} {v : Visit} {s t u : CollectState} {ty : VarType}
  {st st' : ScopeTree} {recorded recorded' : ScopeID → Definition → Prop}

theorem Keeps.refl : Keeps s s := ⟨rfl,fun _ _ h => h,fun _ _ h => h⟩

theorem Keeps.trans (h : Keeps s t) (h' : Keeps t u) : Keeps s u :=
  ⟨h'.simple.trans h.simple,fun id v hv => h'.types id v (h.types id v hv),fun i d hd => h'.holds i d (h.holds i d hd)⟩

theorem Visit.Declares.congr (h : v.Declares cfg types st recorded ty) (hholds : ∀ i d, st.Holds i d → st'.Holds i d)
    (hrecorded : ∀ i d, BasicType types d.type → (recorded i d ↔ recorded' i d)) :
    v.Declares cfg types st' recorded' ty := by
  cases ty with
  | simple => exact h
  | pointer => exact h
  | function f =>
    obtain ⟨hkind,hname,hreturns,htypes,hnames,hd⟩ := h
    exact ⟨hkind,hname,hreturns,htypes,hnames,hholds _ _ hd⟩
  | compound c =>
    obtain ⟨hkind,hname,hmembers,hd⟩ := h
    refine ⟨hkind,hname,fun τ hτ n => ?_,hholds _ _ hd⟩
    rw [hmembers τ hτ n]
    apply exists_congr
    intro d
    constructor
    · rintro ⟨hrec,rfl,hn⟩
      exact ⟨(hrecorded _ d hτ).mp hrec,rfl,hn⟩
    · rintro ⟨hrec,rfl,hn⟩
      exact ⟨(hrecorded _ d hτ).mpr hrec,rfl,hn⟩

theorem Visit.Declares.function (h : v.Declares cfg types st recorded ty) (hkind : v.kind = .kFunctionDefinition) :
    ∃ f, ty = .function f ∧ v.DeclaresFunction cfg types st f := by
  cases ty with
  | function f => exact ⟨f,rfl,h⟩
  | compound c => exact absurd (hkind.symm.trans h.kind) (by decide)
  | simple => cases h
  | pointer => cases h

theorem Visit.Declares.compound (h : v.Declares cfg types st recorded ty) (hkind : v.kind = .kClassDefinition) :
    ∃ c, ty = .compound c ∧ v.DeclaresClass types st recorded c := by
  cases ty with
  | compound c => exact ⟨c,rfl,h⟩
  | function f => exact absurd (hkind.symm.trans h.kind) (by decide)
  | simple => cases h
  | pointer => cases h

/-- The visits before a state are those before and after a state in between. -/
theorem recordedBy_append (h : ∀ τ, BasicType types τ → Gains τ (vs.flatMap (Visit.definitions cfg types)) s t)
    {before : List Visit} (i : ScopeID) (d : Definition) (hd : BasicType types d.type) :
    RecordedBy cfg types t before i d ↔ RecordedBy cfg types s (vs ++ before) i d := by
  unfold RecordedBy DefinedBy
  rw [(h d.type hd).holds i d rfl, List.mem_flatMap, or_assoc]
  simp only [List.mem_append, or_and_right, exists_or]

theorem Declared.refl : Declared cfg types [] s s := by
  refine ⟨fun _ _ => .refl,.refl,fun _ _ h => .inl h,?_⟩
  intro before v after heq
  simp at heq

theorem Declared.trans (h : Declared cfg types vs s t) (h' : Declared cfg types ws t u) :
    Declared cfg types (vs ++ ws) s u := by
  refine ⟨?_,h.keeps.trans h'.keeps,?_,?_⟩
  · intro τ hτ
    rw [List.flatMap_append]
    exact (h.gains τ hτ).trans (h'.gains τ hτ)
  · intro id ty hty
    rcases h'.made id ty hty with hty | ⟨before,v,after,rfl,hv⟩
    · rcases h.made id ty hty with hty | ⟨before,v,after,rfl,hv⟩
      · exact .inl hty
      · exact .inr ⟨before,v,after ++ ws,by simp,hv.congr h'.keeps.holds fun _ _ _ => Iff.rfl⟩
    · exact .inr ⟨vs ++ before,v,after,by simp,hv.congr (fun _ _ hd => hd) (recordedBy_append h.gains)⟩
  · intro before v after heq hmakes
    rcases List.append_eq_append_iff.mp heq with ⟨mid,rfl,hws⟩ | ⟨mid,hvs,hws⟩
    · obtain ⟨ty,hty,hv⟩ := h'.declared mid v after hws hmakes
      exact ⟨ty,hty,hv.congr (fun _ _ hd => hd) (recordedBy_append h.gains)⟩
    · cases mid with
      | nil =>
        obtain ⟨ty,hty,hv⟩ := h'.declared [] v after hws.symm hmakes
        have hsame : vs = before := by simpa using hvs
        refine ⟨ty,hty,hv.congr (fun _ _ hd => hd) fun i d hd => ?_⟩
        rw [recordedBy_append h.gains i d hd, List.append_nil, hsame]
      | cons w mid =>
        obtain ⟨rfl,-⟩ := List.cons.inj hws
        obtain ⟨ty,hty,hv⟩ := h.declared before v mid hvs hmakes
        exact ⟨ty,h'.keeps.types _ _ hty,hv.congr h'.keeps.holds fun _ _ _ => Iff.rfl⟩

structure OnlySymbols (s t : CollectState) : Prop where
  types : t.types = s.types
  holds : ∀ i d, s.scopes.Holds i d → t.scopes.Holds i d

structure Made (cfg : Configuration) (types : TypeSystem) (v : Visit) (s t : CollectState) : Prop where
  keeps : Keeps s t
  made : ∀ id ty, t.types.getTypePtrByID id = some ty →
    s.types.getTypePtrByID id = some ty ∨ v.Declares cfg types t.scopes s.scopes.Holds ty
  declared : v.MakesType cfg types → ∃ ty, t.types.getTypePtrByID ty.typeId = some ty ∧
    v.Declares cfg types t.scopes s.scopes.Holds ty

theorem OnlySymbols.refl : OnlySymbols s s := ⟨rfl,fun _ _ h => h⟩

theorem OnlySymbols.trans (h : OnlySymbols s t) (h' : OnlySymbols t u) : OnlySymbols s u :=
  ⟨h'.types.trans h.types,fun i d hd => h'.holds i d (h.holds i d hd)⟩

theorem OnlySymbols.keeps (h : OnlySymbols s t) : Keeps s t := ⟨by rw [h.types],fun _ _ hv => by rwa [h.types],h.holds⟩

theorem Made.nothing (hnone : ¬ v.MakesType cfg types) (h : OnlySymbols s t) : Made cfg types v s t :=
  ⟨h.keeps,fun _ _ hty => .inl (by rwa [h.types] at hty),fun hmakes => absurd hmakes hnone⟩

theorem Made.symbols (h : Made cfg types v s t) (h' : OnlySymbols t u) : Made cfg types v s u := by
  refine ⟨h.keeps.trans h'.keeps,?_,?_⟩
  · intro id ty hty
    rw [h'.types] at hty
    rcases h.made id ty hty with hty | hv
    · exact .inl hty
    · exact .inr (hv.congr h'.holds fun _ _ _ => Iff.rfl)
  · intro hmakes
    obtain ⟨ty,hty,hv⟩ := h.declared hmakes
    exact ⟨ty,by rwa [h'.types],hv.congr h'.holds fun _ _ _ => Iff.rfl⟩

theorem Made.created {types' : TypeSystem} (hget : ∀ id, types'.getTypePtrByID id =
      if s.types.statics.nextId = id then some ty else s.types.getTypePtrByID id)
    (hid : ty.typeId = s.types.statics.nextId) (hsimple : types'.statics.simple = s.types.statics.simple)
    (h : OnlySymbols { s with types := types' } t) (hv : v.Declares cfg types t.scopes s.scopes.Holds ty) : Made cfg types v s t := by
  have hnew : ∀ id, t.types.getTypePtrByID id =
      if s.types.statics.nextId = id then some ty else s.types.getTypePtrByID id := by
    rw [h.types]
    exact hget
  refine ⟨⟨?_,?_,h.holds⟩,?_,?_⟩
  · rw [h.types]
    exact hsimple
  · intro id w hw
    rw [hnew, if_neg, hw]
    rintro rfl
    rw [TypeSystem.getTypePtrByID_nextId] at hw
    cases hw
  · intro id w hw
    rw [hnew] at hw
    split at hw
    · cases hw
      exact .inr hv
    · exact .inl hw
  · intro _
    exact ⟨ty,by rw [hnew, if_pos hid.symm],hv⟩

theorem Made.declares (h : Made cfg types v s t)
    (hgains : ∀ τ, BasicType types τ → Gains τ (v.definitions cfg types) s t) : Declared cfg types [v] s t := by
  have hstart : ∀ i d, RecordedBy cfg types s [] i d ↔ s.scopes.Holds i d := by simp [RecordedBy, DefinedBy]
  refine ⟨by simpa using hgains,h.keeps,?_,?_⟩
  · intro id ty hty
    rcases h.made id ty hty with hty | hv
    · exact .inl hty
    · exact .inr ⟨[],v,[],rfl,hv.congr (fun _ _ hd => hd) fun i d _ => (hstart i d).symm⟩
  · intro before w after heq hmakes
    obtain ⟨rfl,rfl⟩ : before = [] ∧ v = w := by
      cases before with
      | nil => exact ⟨rfl,(List.cons.inj heq).1⟩
      | cons a before => simp at heq
    obtain ⟨ty,hty,hv⟩ := h.declared hmakes
    exact ⟨ty,hty,hv.congr (fun _ _ hd => hd) fun i d _ => (hstart i d).symm⟩

theorem addDefinition_onlySymbols {id : ScopeID} {d : Definition} :
    Attains (addDefinition id d) s fun _ t => OnlySymbols s t ∧ (d.type ≠ SpecialType.kNotExist → t.scopes.Holds id d) := by
  constructor
  intro _ t hrun
  obtain ⟨sc,hsc,htypes,hscopes⟩ := addDefinition_run hrun
  have hadded : ∀ {d'}, d' ∈ sc.symbolTable.vals d'.type ∨ d.type ≠ SpecialType.kNotExist ∧ d.type = d'.type ∧ d' = d →
      t.scopes.Holds id d' := by
    intro d' hd'
    exact ⟨_,by rw [hscopes, if_pos rfl],Scope.mem_addDefinition.mpr hd'⟩
  refine ⟨⟨htypes,?_⟩,fun hne => hadded (.inr ⟨hne,rfl,rfl⟩)⟩
  rintro i d' ⟨sc',hsc',hd'⟩
  by_cases hi : id = i
  · subst hi
    rw [hsc] at hsc'
    cases hsc'
    exact hadded (.inl hd')
  · exact ⟨sc',by rw [hscopes, if_neg hi, hsc'],hd'⟩

theorem forM_addDefinition_onlySymbols {α : Type} {id : ScopeID} (f : α → Definition) (l : List α) :
    Attains (l.forM fun a => addDefinition id (f a)) s fun _ t => OnlySymbols s t := by
  apply Attains.forM (P := fun _ t => OnlySymbols s t) l .refl
  intro before a t _ ht
  exact addDefinition_onlySymbols.mono fun _ u hu => ht.trans hu.1

theorem simpleType_looks {cur : IR} : Attains (simpleType cfg cur) s fun _ t => t = s := by
  unfold simpleType
  dsimp only
  split
  · exact Attains.pure rfl
  · apply Attains.get_bind
    split
    · exact Attains.pure rfl
    · apply Attains.assertThat.bind
      rintro _ t ⟨_,rfl⟩
      exact Attains.pure rfl

theorem collectSimpleVariableDefinition_declares (hclass : v.kind ≠ .kClassDefinition)
    (hfunction : v.kind ≠ .kFunctionDefinition) (hsimple : s.types.statics.simple = types.statics.simple) :
    Attains (collectSimpleVariableDefinition cfg v.cur) s fun _ t => Declared cfg types [v] s t := by
  have hnone : ¬ v.MakesType cfg types := by
    unfold Visit.MakesType
    split
    · exact absurd ‹_› hclass
    · exact absurd ‹_› hfunction
    · exact id
  have hsymbols : Attains (collectSimpleVariableDefinition cfg v.cur) s fun _ t => OnlySymbols s t := by
    unfold collectSimpleVariableDefinition
    apply simpleType_looks.bind
    rintro type _ rfl
    exact forM_addDefinition_onlySymbols _ _
  have hgains : Attains (collectSimpleVariableDefinition cfg v.cur) s fun _ t =>
      ∀ τ, BasicType types τ → Gains τ (v.definitions cfg types) s t :=
    Attains.all fun τ => Attains.all fun hτ => collectSimpleVariableDefinition_attains hclass hfunction hτ hsimple
  apply (hsymbols.and hgains).mono
  rintro _ t ⟨honly,hgains⟩
  exact (Made.nothing hnone honly).declares hgains

theorem typeIDOf_sameBasic {types' : TypeSystem} (hsame : types'.statics.simple = types.statics.simple) (x : IR) :
    SameBasic types (typeIDOf cfg types' x) (typeIDOf cfg types x) := fun _ hτ => getTypeIDByStr_eq_iff hsame hτ

theorem returnTypeID_sameBasic {types' : TypeSystem} (hsame : types'.statics.simple = types.statics.simple) (x : IR) :
    SameBasic types (returnTypeID cfg types' x) (returnTypeID cfg types x) := by
  intro τ hτ
  unfold returnTypeID
  split
  · exact Iff.rfl
  · exact getTypeIDByStr_eq_iff hsame hτ

/-- The type of a function, made and recorded under its name. -/
theorem functionHead_made {cur : IR} (hsimple : s.types.statics.simple = types.statics.simple) :
    Attains (onlyIf (returnTypeID cfg s.types cur.returnType ≠ SpecialType.kNotExist) do
        let id ← createFunctionType cur.functionText (returnTypeID cfg s.types cur.returnType)
          (cur.functionArguments.map fun arg => (typeIDOf cfg s.types arg.typeNode,arg.argumentText))
        addDefinition cur.scopeId ⟨cur.functionText,id,cur.functionName.statementId⟩) s
      fun _ t => Made cfg types ⟨.kFunctionDefinition,cur⟩ s t ∧ ∀ τ, BasicType types τ → Gains τ [] s t := by
  apply Attains.onlyIf
  · intro _
    let args := cur.functionArguments.map fun arg => (typeIDOf cfg s.types arg.typeNode,arg.argumentText)
    let types' := s.types.createFunctionType cur.functionText (returnTypeID cfg s.types cur.returnType)
      (args.map Prod.fst) (args.map Prod.snd)
    have hcreate : Attains (createFunctionType cur.functionText (returnTypeID cfg s.types cur.returnType) args) s
        fun id t => id = s.types.statics.nextId ∧ t = { s with types := types' } := by
      constructor
      rintro id t hrun
      cases hrun
      exact ⟨rfl,rfl⟩
    apply hcreate.bind
    rintro id _ ⟨rfl,rfl⟩
    have hgains : Attains (addDefinition cur.scopeId ⟨cur.functionText,s.types.statics.nextId,cur.functionName.statementId⟩)
        { s with types := types' } fun _ t => ∀ τ, BasicType types τ → Gains τ [] s t :=
      Attains.all fun τ => Attains.all fun hτ => addCreated_attains hτ hsimple rfl
    apply (addDefinition_onlySymbols.and hgains).mono
    rintro _ t ⟨⟨honly,hholds⟩,hgains⟩
    refine ⟨Made.created (TypeSystem.getTypePtrByID_createFunctionType _ _ _ _) rfl rfl honly ?_,hgains⟩
    refine ⟨rfl,rfl,returnTypeID_sameBasic hsimple _,?_,?_,hholds s.types.nextId_ne⟩
    · simp only [args, List.map_map, List.forall₂_map_left_iff, List.forall₂_same]
      exact fun arg _ => typeIDOf_sameBasic hsimple _
    · simp [args, Function.comp_def]
  · intro hnone
    refine ⟨Made.nothing ?_ .refl,fun _ _ => .refl⟩
    rintro ⟨-,hbasic⟩
    have hreturns := (returnTypeID_sameBasic hsimple cur.returnType _ hbasic).mpr rfl
    rw [not_not.mp hnone] at hreturns
    exact absurd (hreturns ▸ hbasic.1) (by decide)

/-- The parameters, with the types that their names had before the function. -/
theorem parameters_attains {cur : IR} {τ : TypeID} {types' : TypeSystem} (hsimple : types'.statics.simple = types.statics.simple)
    (htext : cur.functionText ≠ []) (hbody : cur.functionBody ≠ .nil) (hτ : BasicType types τ) :
    Attains ((cur.functionArguments.map fun arg => (typeIDOf cfg types' arg.typeNode,arg.argumentText)).forM
        fun a => addDefinition cur.functionBody.scopeId ⟨a.2,a.1,cur.statementId⟩) s
      fun _ t => Gains τ (Visit.definitions cfg types ⟨.kFunctionDefinition,cur⟩) s t := by
  apply (forM_addDefinition_attains (fun a : TypeID × Str => ⟨a.2,a.1,cur.statementId⟩) _ hτ.1).mono
  intro _ t ht
  apply ht.congr
  intro i d hd
  rw [Visit.definitions, if_pos ⟨htext,hbody⟩]
  simp only [List.map_map, List.mem_map, Function.comp_apply, Prod.mk.injEq]
  apply exists_congr
  intro arg
  have htype : typeIDOf cfg types' arg.typeNode = τ ↔ typeIDOf cfg types arg.typeNode = τ :=
    typeIDOf_sameBasic hsimple _ τ hτ
  constructor
  · rintro ⟨harg,hi,rfl⟩
    exact ⟨harg,hi,by rw [htype.mp hd, ← show typeIDOf cfg types' arg.typeNode = τ from hd]⟩
  · rintro ⟨harg,hi,rfl⟩
    exact ⟨harg,hi,by rw [htype.mpr hd, ← show typeIDOf cfg types arg.typeNode = τ from hd]⟩

theorem collectFunctionDefinition_declares {inner : IR → Collect Unit} {cur : IR}
    (hsimple : s.types.statics.simple = types.statics.simple) (hvs : cur.functionText = [] ∨ cur.functionBody = .nil → vs = [])
    (hinner : cur.functionText ≠ [] → ∀ t, t.types.statics.simple = types.statics.simple →
      Attains (inner cur.functionBody) t fun _ u => Declared cfg types vs t u) :
    Attains (collectFunctionDefinition cfg inner cur) s
      fun _ t => Declared cfg types (⟨.kFunctionDefinition,cur⟩ :: vs) s t := by
  unfold collectFunctionDefinition
  apply Attains.assertThat.bind
  rintro _ _ ⟨_,rfl⟩
  by_cases htext : cur.functionText = []
  · have hdefinitions : Visit.definitions cfg types ⟨.kFunctionDefinition,cur⟩ = [] := by
      rw [Visit.definitions, if_neg fun h => h.1 htext]
    have hnone : ¬ Visit.MakesType cfg types ⟨.kFunctionDefinition,cur⟩ := by
      rintro ⟨hne,-⟩
      exact hne htext
    change Attains (if cur.functionText = [] then _ else _) _ _
    rw [if_pos htext, hvs (.inl htext)]
    refine Attains.pure ((Made.nothing hnone .refl).declares fun _ _ => ?_)
    rw [hdefinitions]
    exact .refl
  · change Attains (if cur.functionText = [] then _ else _) _ _
    rw [if_neg htext]
    apply Attains.get_bind
    apply (Attains.lift ..).bind
    rintro args u ⟨hargs,rfl⟩
    obtain ⟨_,rfl⟩ := argumentsOf_ok_iff.mp hargs
    apply (checkArguments_attains _).bind
    rintro _ v rfl
    apply (functionHead_made hsimple).bind
    rintro _ t ⟨hmade,hgains⟩
    have hsimple' : t.types.statics.simple = types.statics.simple := hmade.keeps.simple.trans hsimple
    apply Attains.onlyIf
    · intro hbody
      have hgain : Attains ((cur.functionArguments.map fun arg => (typeIDOf cfg v.types arg.typeNode,arg.argumentText)).forM
          fun a => addDefinition cur.functionBody.scopeId ⟨a.2,a.1,cur.statementId⟩) t
          fun _ w => ∀ τ, BasicType types τ → Gains τ (Visit.definitions cfg types ⟨.kFunctionDefinition,cur⟩) t w :=
        Attains.all fun τ => Attains.all fun hτ => parameters_attains hsimple htext hbody hτ
      apply ((forM_addDefinition_onlySymbols (fun a : TypeID × Str => ⟨a.2,a.1,cur.statementId⟩) _).and hgain).bind
      rintro _ w ⟨honly,hparameters⟩
      have hvisit : Declared cfg types [⟨.kFunctionDefinition,cur⟩] v w := by
        refine (hmade.symbols honly).declares fun τ hτ => ?_
        have hboth := (hgains τ hτ).trans (hparameters τ hτ)
        rwa [List.nil_append] at hboth
      apply (hinner htext w (hvisit.keeps.simple.trans hsimple)).mono
      intro _ z hz
      exact hvisit.trans hz
    · intro hbody
      rw [hvs (.inr (not_not.mp hbody))]
      refine hmade.declares fun τ hτ => ?_
      rw [Visit.definitions, if_neg fun h => hbody h.2]
      exact hgains τ hτ

/-- What the members of a class are taken from. -/
theorem mem_members_iff {sc : Scope} (hkept : sc.symbolTable.Kept) {τ : TypeID} {n : Str} :
    n ∈ VectorMap.vals ((sc.symbolTable.toList.flatMap fun e => e.2.map fun d => (d.type,d.name)).foldl
        (fun m p => m.push p.1 p.2) (∅ : VectorMap TypeID Str)) τ ↔
      ∃ d, d ∈ sc.symbolTable.vals d.type ∧ d.type = τ ∧ d.name = n := by
  have hpush : ∀ (m : VectorMap TypeID Str) (p : TypeID × Str),
      n ∈ (m.push p.1 p.2).vals τ ↔ n ∈ m.vals τ ∨ p.1 = τ ∧ n = p.2 := fun _ _ => VectorMap.mem_vals_push
  rw [VectorMap.foldl_iff (p := fun m : VectorMap TypeID Str => n ∈ m.vals τ) hpush]
  simp only [VectorMap.vals_empty, List.not_mem_nil, false_or, List.mem_flatMap, List.mem_map]
  constructor
  · rintro ⟨_,⟨e,he,d,hd,rfl⟩,rfl,rfl⟩
    refine ⟨d,?_,rfl,rfl⟩
    have hvals : sc.symbolTable.vals e.1 = e.2 := VectorMap.vals_of_entry he
    rw [← hvals] at hd
    rwa [hkept.keyed e.1 d hd]
  · rintro ⟨d,hd,rfl,rfl⟩
    exact ⟨_,⟨_,VectorMap.exists_entry hd,d,hd,rfl⟩,rfl,rfl⟩

/-- The type of a class, made from what is in its body and recorded under its name. -/
theorem classHead_made {cur : IR} {name : Str} (hsimple : s.types.statics.simple = types.statics.simple)
    (hname : cur.className.getString = .ok name) :
    Attains (do
        let members ← membersOf cur.classBody.scopeId
        let id ← createCompoundType (trim name) members
        addDefinition cur.scopeId ⟨trim name,id,cur.statementId⟩) s
      fun _ t => Made cfg types ⟨.kClassDefinition,cur⟩ s t ∧ ∀ τ, BasicType types τ → Gains τ [] s t := by
  have hmembers : Attains (membersOf cur.classBody.scopeId) s fun members t => t = s ∧
      ∃ sc, s.scopes.getScopeById cur.classBody.scopeId = some sc ∧
        members = sc.symbolTable.toList.flatMap fun e => e.2.map fun d => (d.type,d.name) :=
    ⟨fun _ _ hrun => membersOf_run hrun⟩
  apply hmembers.bind
  rintro members s ⟨rfl,sc,hsc,hmem⟩
  have hcreate : Attains (createCompoundType (trim name) members) s fun id t => id = s.types.statics.nextId ∧
      t = { s with types := s.types.createCompoundType (trim name) members } := by
    constructor
    rintro id t hrun
    cases hrun
    exact ⟨rfl,rfl⟩
  apply hcreate.bind
  rintro _ _ ⟨rfl,rfl⟩
  have hgains : Attains (addDefinition cur.scopeId ⟨trim name,s.types.statics.nextId,cur.statementId⟩)
      { s with types := s.types.createCompoundType (trim name) members } fun _ t => ∀ τ, BasicType types τ → Gains τ [] s t :=
    Attains.all fun τ => Attains.all fun hτ => addCreated_attains hτ hsimple rfl
  apply (addDefinition_onlySymbols.and hgains).mono
  rintro _ t ⟨⟨honly,hholds⟩,hgains⟩
  refine ⟨Made.created (TypeSystem.getTypePtrByID_createCompoundType _ _) rfl rfl honly ?_,hgains⟩
  refine ⟨rfl,?_,?_,hholds s.types.nextId_ne⟩
  · change cur.className.getString.map trim = _
    rw [hname]
    rfl
  · intro τ _ n
    have hheld : ∀ d, s.scopes.Holds cur.classBody.scopeId d ↔ d ∈ sc.symbolTable.vals d.type := by
      intro d
      rw [ScopeTree.Holds, hsc]
      simp
    simp only [hmem, mem_members_iff (s.scopes.ok.tables _ sc hsc), hheld]

theorem collectStructureDefinition_declares {inner : IR → Collect Unit} {cur : IR}
    (hsimple : s.types.statics.simple = types.statics.simple)
    (hinner : Attains (inner cur.classBody) s fun _ t => Declared cfg types vs s t) :
    Attains (collectStructureDefinition inner cur) s
      fun _ t => Declared cfg types (vs ++ [⟨.kClassDefinition,cur⟩]) s t := by
  unfold collectStructureDefinition
  apply Attains.assertThat.bind
  rintro _ _ ⟨_,rfl⟩
  apply Attains.assertThat.bind
  rintro _ _ ⟨_,rfl⟩
  apply Attains.assertThat.bind
  rintro _ _ ⟨_,rfl⟩
  apply (Attains.lift ..).bind
  rintro name _ ⟨hname,rfl⟩
  apply hinner.bind
  intro _ t ht
  apply (classHead_made (ht.keeps.simple.trans hsimple) hname).mono
  rintro _ u ⟨hmade,hgains⟩
  exact ht.trans (hmade.declares hgains)

def DeclaresVisits (cfg : Configuration) (types : TypeSystem) (inner : IR → Collect Unit) (vs : IR → List Visit) : Prop :=
  ∀ body s, s.types.statics.simple = types.statics.simple →
    Attains (inner body) s fun _ t => Declared cfg types (vs body) s t

theorem collectDefinition_declares {inner : IR → Collect Unit} {vs : IR → List Visit} (hnil : vs .nil = [])
    (hinner : DeclaresVisits cfg types inner vs) : DeclaresVisits cfg types (collectDefinition cfg inner) (visitsFrom vs) := by
  intro t
  induction t with
  | nil => exact fun s _ => Attains.pure .refl
  | node n l r ihl ihr =>
    intro s hsimple
    by_cases hn : isDefinition n = true
    · by_cases hclass : IR.findDefineType (.node n l r) = .kClassDefinition
      · rw [collectDefinition_class hn hclass, visitsFrom_class hn hclass]
        exact collectStructureDefinition_declares hsimple (hinner _ s hsimple)
      · by_cases hfunction : IR.findDefineType (.node n l r) = .kFunctionDefinition
        · rw [collectDefinition_function hn hfunction, visitsFrom_function hn hfunction]
          apply collectFunctionDefinition_declares hsimple
          · rintro (htext | hbody)
            · rw [if_pos htext]
            · rw [hbody, hnil, ite_self]
          · intro htext t ht
            rw [if_neg htext]
            exact hinner _ t ht
        · rw [collectDefinition_variable hn hclass hfunction, visitsFrom_variable hn hclass hfunction]
          exact collectSimpleVariableDefinition_declares (v := ⟨_,.node n l r⟩) hclass hfunction hsimple
    · rw [collectDefinition, if_neg hn, visitsFrom_other hn]
      apply (ihl s hsimple).bind
      intro _ t ht
      apply (ihr t (ht.keeps.simple.trans hsimple)).mono
      intro _ u hu
      exact ht.trans hu

theorem createSymbolTableRec_declares {fuel recursiveCounter : ℕ} {t : IR} (hcounter : 1 ≤ recursiveCounter)
    (hsmall : recursiveCounter = 1 → t.getChildNum ≤ 250) (hsimple : s.types.statics.simple = types.statics.simple) :
    Attains (createSymbolTableRec cfg fuel recursiveCounter t) s fun _ u => Declared cfg types (visitsRec fuel t) s u := by
  induction fuel generalizing recursiveCounter t s with
  | zero => exact Attains.fail
  | succ fuel ih =>
    have hgo : ¬ (recursiveCounter = 1 ∧ (t.getChildNum > 250 ∨ t.getChildNum > 1500)) := by omega
    rw [createSymbolTableRec, if_neg hgo, visitsRec]
    apply Attains.onlyIf
    · intro _
      apply collectDefinition_declares (visitsRec_nil fuel) ?_ t s hsimple
      intro body s hs
      exact ih (by omega) (by omega) hs
    · intro hdef
      rw [visitsFrom_eq_nil (by simpa using hdef)]
      exact .refl

/-- A collection adds the types of the functions and classes it visits, each with
what its definition says, and no others. -/
theorem buildScopeTreeWithSymbolTable_declares {before : TypeSystem} {root root' : IR} (hroot : IR.isScoped root = true)
    (hsmall : root.getChildNum ≤ 250) (hbuild : buildScopeTreeWithSymbolTable cfg before root = .ok (root',s)) :
    (∀ id ty, s.types.getTypePtrByID id = some ty → (TypeSystem.construct cfg before).getTypePtrByID id = some ty ∨
      ∃ earlier v later, visits root' = earlier ++ v :: later ∧ v.Declares cfg (TypeSystem.construct cfg before) s.scopes
        (DefinedBy cfg (TypeSystem.construct cfg before) earlier) ty) ∧
    ∀ earlier v later, visits root' = earlier ++ v :: later → v.MakesType cfg (TypeSystem.construct cfg before) →
      ∃ ty, s.types.getTypePtrByID ty.typeId = some ty ∧ v.Declares cfg (TypeSystem.construct cfg before) s.scopes
        (DefinedBy cfg (TypeSystem.construct cfg before) earlier) ty := by
  obtain ⟨scopes,hmirror,hsymbols⟩ := buildScopeTreeWithSymbolTable_run hroot hbuild
  have hempty : ∀ i d, ¬ scopes.Holds i d := by
    rintro i d ⟨sc,hsc,hd⟩
    rw [hmirror.symbolTable_eq hsc] at hd
    simp at hd
  have hdeclared : Declared cfg (TypeSystem.construct cfg before) (visits root') ⟨TypeSystem.construct cfg before,scopes⟩ s :=
    (createSymbolTableRec_declares le_rfl (fun _ => hmirror.getChildNum_eq ▸ hsmall) rfl).of_run _ _ hsymbols
  have hstart : ∀ earlier i d, RecordedBy cfg (TypeSystem.construct cfg before) ⟨TypeSystem.construct cfg before,scopes⟩
      earlier i d ↔ DefinedBy cfg (TypeSystem.construct cfg before) earlier i d := by
    intro earlier i d
    simp [RecordedBy, hempty]
  constructor
  · intro id ty hty
    rcases hdeclared.made id ty hty with hty | ⟨earlier,v,later,heq,hv⟩
    · exact .inl hty
    · exact .inr ⟨earlier,v,later,heq,hv.congr (fun _ _ hd => hd) fun i d _ => hstart earlier i d⟩
  · intro earlier v later heq hmakes
    obtain ⟨ty,hty,hv⟩ := hdeclared.declared earlier v later heq hmakes
    exact ⟨ty,hty,hv.congr (fun _ _ hd => hd) fun i d _ => hstart earlier i d⟩

end

/-- `STRUCT S { INT m }` and `INT f ( INT x ) { }`. -/
def memberAndFunction : IR :=
  programOf (plainNode .kDataDefault
    (plainNode .kClassDefinition (textLeaf .kClassName "S".toList)
      (.node ⟨5,none,.monostate,.kClassBody,.kScopeClass,0,0⟩
        (plainNode .kVariableDefinition (textLeaf .kVariableType "INT".toList) (textLeaf .kVariableName "m".toList)) .nil))
    (plainNode .kFunctionDefinition
      (plainNode .kDataDefault (textLeaf .kFunctionReturnType "INT".toList) (textLeaf .kFunctionName "f".toList))
      (plainNode .kFunctionArgument (textLeaf .kVariableType "INT".toList) (textLeaf .kVariableName "x".toList))))

def declaredRoot : IR := match buildTree memberAndFunction with
  | .ok (root,_) => root
  | .error _ => .nil

def memberVisit : Visit := ⟨.kVariableType,declaredRoot.subtreeAt [.left,.left,.right,.left]⟩
def classVisit : Visit := ⟨.kClassDefinition,declaredRoot.subtreeAt [.left,.left]⟩
def functionVisit : Visit := ⟨.kFunctionDefinition,declaredRoot.subtreeAt [.left,.right]⟩

theorem declaredRoot_visits : visits declaredRoot = [memberVisit,classVisit,functionVisit] := rfl

theorem classVisit_written : classVisit.cur.classText = .ok "S".toList ∧
    (classVisit.cur.classBody.scopeId,⟨"m".toList,10,0⟩) ∈
      memberVisit.definitions (intConfig true) (TypeSystem.construct (intConfig true) .initial) :=
  ⟨by decide +kernel,by decide +kernel⟩

theorem functionVisit_written : functionVisit.cur.functionText = "f".toList ∧
    returnTypeID (intConfig true) (TypeSystem.construct (intConfig true) .initial) functionVisit.cur.returnType = 10 ∧
    functionVisit.cur.functionArguments.map IR.argumentText = ["x".toList] :=
  ⟨by decide +kernel,by decide +kernel,by decide +kernel⟩

theorem memberAndFunction_declares : ∃ s c f,
    buildScopeTreeWithSymbolTable (intConfig true) .initial memberAndFunction = .ok (declaredRoot,s) ∧
    s.types.getTypePtrByID c.typeId = some (.compound c) ∧ c.name = "S".toList ∧ "m".toList ∈ c.members.vals 10 ∧
    s.types.getTypePtrByID f.typeId = some (.function f) ∧ f.name = "f".toList ∧ f.returnType = 10 ∧
    f.argNames = ["x".toList] := by
  have hrun : (buildScopeTreeWithSymbolTable (intConfig true) .initial memberAndFunction).map Prod.fst = .ok declaredRoot := by
    decide +kernel
  have hint : BasicType (TypeSystem.construct (intConfig true) .initial) 10 := ⟨le_rfl,by decide +kernel⟩
  obtain ⟨htext,hreturns,hargs⟩ := functionVisit_written
  obtain ⟨hname,hmember⟩ := classVisit_written
  cases hbuild : buildScopeTreeWithSymbolTable (intConfig true) .initial memberAndFunction with
  | error e =>
    rw [hbuild] at hrun
    cases hrun
  | ok r =>
    obtain ⟨root,s⟩ := r
    rw [hbuild] at hrun
    obtain rfl : root = declaredRoot := Except.ok.inj hrun
    have hroot : IR.isScoped memberAndFunction = true := rfl
    obtain ⟨-,hdeclared⟩ := buildScopeTreeWithSymbolTable_declares hroot (by decide) hbuild
    obtain ⟨ty,hclass,hv⟩ := hdeclared [memberVisit] classVisit [functionVisit] declaredRoot_visits trivial
    obtain ⟨ty',hfunction,hv'⟩ := hdeclared [memberVisit,classVisit] functionVisit [] declaredRoot_visits
      ⟨by rw [htext]; decide,by rw [hreturns]; exact hint⟩
    obtain ⟨c,rfl,hc⟩ := hv.compound rfl
    obtain ⟨f,rfl,hf⟩ := hv'.function rfl
    have hsame : Except.ok "S".toList = (Except.ok c.name : Except Fault Str) := hname.symm.trans hc.name
    refine ⟨s,c,f,rfl,hclass,(Except.ok.inj hsame).symm,?_,hfunction,?_,?_,?_⟩
    · exact (hc.members 10 hint _).mpr ⟨_,⟨memberVisit,List.mem_singleton_self _,hmember⟩,rfl,rfl⟩
    · exact hf.name.trans htext
    · exact (hf.returns 10 hint).mpr hreturns
    · exact hf.argNames.trans hargs

end PolyGlot
