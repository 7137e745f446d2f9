import PolyGlot.Scope.Visits

set_option autoImplicit false

/-! # The collectors follow the visits

Each collector succeeds exactly when its visit finds what it needs, and records
what the visit says.
-/
namespace PolyGlot

open BinaryTree Prog

section
variable {cfg : Configuration} {known : List Str} {s : CollectState} {cur : IR}

theorem simpleType_decides (hk : Knows known s) (cur : IR) : Decides (simpleType cfg cur) s
    (cfg.isWeakType = true ∨ cur.typeNode = .nil ∨ cur.typeText ∈ known)
    fun type t => t = s ∧ type ≠ SpecialType.kNotExist := by
  unfold simpleType
  by_cases hnil : cur.searchByDataType .kVariableType .kDataDefault = .nil
  · rw [if_pos hnil]
    have hany : SpecialType.kAnyType ≠ SpecialType.kNotExist := by decide
    exact Decides.iff (Decides.pure ⟨rfl,hany⟩) (by simp [IR.typeNode, hnil])
  · rw [if_neg hnil]
    apply Decides.get_bind
    have hne : typeIDOf cfg s.types (cur.searchByDataType .kVariableType .kDataDefault) ≠ SpecialType.kNotExist ↔
        cur.typeText ∈ known := typeIDOf_ne_iff hk _
    by_cases hany : typeIDOf cfg s.types (cur.searchByDataType .kVariableType .kDataDefault) =
        SpecialType.kNotExist ∧ cfg.isWeakType = true
    · rw [if_pos hany]
      exact Decides.iff (Decides.pure ⟨rfl,by decide⟩) (by simp [hany.2])
    · rw [if_neg hany]
      have hstrict : cfg.isWeakType = true → cur.typeText ∈ known := fun hweak => hne.mp fun h => hany ⟨h,hweak⟩
      refine Decides.iff (Decides.assertThat.bind fun _ t hc ht => Decides.pure ?_) ?_
      · exact ⟨ht,hc⟩
      · rw [and_true, hne]
        constructor
        · exact fun h => .inr (.inr h)
        · rintro (h | h | h)
          · exact hstrict h
          · exact absurd h hnil
          · exact h

theorem collectSimpleVariableDefinition_decides {v : Visit} (hclass : v.kind ≠ .kClassDefinition)
    (hfunction : v.kind ≠ .kFunctionDefinition) (hk : Knows known s) (hplaced : v.cur.scopeId ∈ s.scopes.scopes) :
    Decides (collectSimpleVariableDefinition cfg v.cur) s (v.Survives cfg known) fun _ => Collected known [v] s := by
  obtain ⟨kind,cur⟩ := v
  have hsurvives : Visit.Survives cfg known ⟨kind,cur⟩ ↔
      cfg.isWeakType = true ∨ cur.typeNode = .nil ∨ cur.typeText ∈ known := by
    unfold Visit.Survives
    cases kind <;> simp at hclass hfunction ⊢
  have hnames : Visit.names known ⟨kind,cur⟩ = [] := by
    unfold Visit.names
    cases kind <;> simp at hclass hfunction ⊢
  have hentries : Visit.entries known ⟨kind,cur⟩ = cur.variableNames.map fun name => (cur.scopeId,name.render) := by
    unfold Visit.entries
    cases kind <;> simp at hclass hfunction ⊢
  unfold collectSimpleVariableDefinition
  rw [hsurvives]
  refine Decides.iff ((simpleType_decides hk cur).bind fun type t _ hQ => Decides.of_meets ?_) (by simp)
  obtain ⟨rfl,htype⟩ := hQ
  apply (forM_addDefinition (fun name : IR => ⟨name.render,type,name.statementId⟩) _ hplaced fun _ _ => htype).mono
  intro _ u hu
  have hrecords := hu.records hk
  rwa [Collected, knownAfter_cons, hnames, List.append_nil, entriesOf_cons, hentries, entriesOf_nil, List.append_nil]

def Created (name : Str) (s : CollectState) (id : TypeID) (t : CollectState) : Prop :=
  id = s.types.statics.nextId ∧ ∃ types : TypeSystem, t = { s with types := types } ∧
    ∀ x, x ∈ types.names ↔ x ∈ s.types.names ∨ x = name

theorem createFunctionType_meets (name : Str) (returnType : TypeID) (args : List (TypeID × Str)) :
    Meets (createFunctionType name returnType args) s (Created name s) :=
  ⟨_,_,rfl,rfl,_,rfl,fun _ => TypeSystem.mem_names_createFunctionType⟩

theorem createCompoundType_meets (name : Str) (members : List (TypeID × Str)) :
    Meets (createCompoundType name members) s (Created name s) :=
  ⟨_,_,rfl,rfl,_,rfl,fun _ => TypeSystem.mem_names_createCompoundType⟩

/-- A new type takes its name, and its definition its place. -/
theorem created_records {types : TypeSystem} {name : Str} {id : ScopeID} {statementId : StatementID} (hk : Knows known s)
    (hplaced : id ∈ s.scopes.scopes) (htypes : ∀ x, x ∈ types.names ↔ x ∈ s.types.names ∨ x = name) :
    Meets (addDefinition id ⟨name,s.types.statics.nextId,statementId⟩) { s with types := types } fun _ =>
      Records (known ++ [name]) [(id, name)] s := by
  have hplaced' : id ∈ ({ s with types := types } : CollectState).scopes.scopes := hplaced
  apply (addDefinition_adds hplaced' s.types.nextId_ne).mono
  intro _ t ht
  refine ⟨ht.scopes,fun x => ?_,ht.entries⟩
  rw [ht.types, htypes, hk x, List.mem_append, List.mem_singleton]

theorem membersOf_meets {id : ScopeID} (h : id ∈ s.scopes.scopes) : Meets (membersOf id) s fun _ t => t = s := by
  obtain ⟨sc,hsc⟩ := Option.isSome_iff_exists.mp (Std.TreeMap.mem_iff_isSome_getElem?.mp h)
  have hget : s.scopes.getScopeById id = some sc := hsc
  refine ⟨sc.symbolTable.toList.flatMap fun e => e.2.map fun d => (d.type,d.name),s,?_,rfl⟩
  simp only [membersOf, hget]

theorem collectStructureDefinition_decides {inner : IR → Collect Unit} {vs : List Visit} (hk : Knows known s)
    (hplaced : Placed s cur) (hcur : cur ≠ .nil)
    (hinner : cur.classBody ≠ .nil → Decides (inner cur.classBody) s (VisitsSurvive cfg known vs) fun _ => Collected known vs s) :
    Decides (collectStructureDefinition inner cur) s (VisitsSurvive cfg known (vs ++ [⟨.kClassDefinition,cur⟩]))
      fun _ => Collected known (vs ++ [⟨.kClassDefinition,cur⟩]) s := by
  have hrun : Decides (collectStructureDefinition inner cur) s
      (cur.dataType? = some .kClassDefinition ∧ cur.classBody ≠ .nil ∧ cur.className ≠ .nil ∧
        (∃ name, cur.className.getString = .ok name) ∧ VisitsSurvive cfg known vs)
      fun _ => Collected known (vs ++ [⟨.kClassDefinition,cur⟩]) s := by
    unfold collectStructureDefinition
    apply Decides.assertThat.bind
    rintro _ t _ rfl
    apply Decides.assertThat.bind
    rintro _ t hbody rfl
    apply Decides.assertThat.bind
    rintro _ t _ rfl
    apply (Decides.lift ..).bind
    rintro name t _ ⟨hname,rfl⟩
    refine Decides.iff ((hinner hbody).bind fun _ u _ hu => Decides.of_meets ?_) (by simp)
    have hbodyIn : cur.classBody.scopeId ∈ u.scopes.scopes := (hu.scopes _).mpr (hplaced.search.scopeId hbody)
    apply (membersOf_meets hbodyIn).bind
    rintro members v rfl
    apply (createCompoundType_meets ..).bind
    rintro id w ⟨rfl,types,rfl,htypes⟩
    have hcurIn : cur.scopeId ∈ v.scopes.scopes := (hu.scopes _).mpr (hplaced.scopeId hcur)
    apply (created_records hu.names hcurIn htypes).mono
    intro _ w hw
    apply hu.trans
    have htext : cur.classText = .ok (trim name) := by
      rw [IR.classText, IR.className, hname]
      rfl
    have hnames : Visit.names (knownAfter known vs) ⟨.kClassDefinition,cur⟩ = [trim name] := by
      simp only [Visit.names, htext]
    rw [Collected, knownAfter_cons, knownAfter_nil, hnames, entriesOf_cons, entriesOf_nil, List.append_nil,
      Visit.entries, hnames]
    exact hw
  apply hrun.iff
  rw [visitsSurvive_append, visitsSurvive_cons, Visit.Survives]
  have hname : (∃ name, cur.className.getString = .ok name) → cur.className ≠ .nil := by
    rintro ⟨name,h⟩ hnil
    rw [hnil] at h
    cases h
  tauto

theorem argumentsOf_cons (types : TypeSystem) (arg : IR) (arguments : List IR) :
    argumentsOf cfg types (arg :: arguments) =
      if arg.firstName = .nil then .error .assertion
      else if arg.typeNode = .nil then .error .nullDeref
      else match argumentsOf cfg types arguments with
        | .error f => .error f
        | .ok rest => .ok ((typeIDOf cfg types arg.typeNode,arg.argumentText) :: rest) := rfl

theorem argumentsOf_ok_iff {types : TypeSystem} {arguments : List IR} {args : List (TypeID × Str)} :
    argumentsOf cfg types arguments = .ok args ↔
      (∀ arg ∈ arguments, arg.firstName ≠ .nil ∧ arg.typeNode ≠ .nil) ∧
        args = arguments.map fun arg => (typeIDOf cfg types arg.typeNode,arg.argumentText) := by
  induction arguments generalizing args with
  | nil => simp [argumentsOf, eq_comm]
  | cons arg arguments ih =>
    rw [argumentsOf_cons, List.forall_mem_cons, List.map_cons]
    by_cases hname : arg.firstName = .nil
    · simp [hname]
    · by_cases htype : arg.typeNode = .nil
      · simp [hname, htype]
      · rw [if_neg hname, if_neg htype]
        cases hrest : argumentsOf cfg types arguments with
        | error e =>
          have hno : ¬ ∀ arg ∈ arguments, arg.firstName ≠ .nil ∧ arg.typeNode ≠ .nil := by
            intro hall
            have hok := ih.mpr ⟨hall,rfl⟩
            rw [hrest] at hok
            cases hok
          simp only [reduceCtorEq, false_iff]
          exact fun h => hno h.1.2
        | ok rest =>
          obtain ⟨hall,rfl⟩ := ih.mp hrest
          simp only [Except.ok.injEq, eq_comm (a := args)]
          exact ⟨fun h => ⟨⟨⟨hname,htype⟩,hall⟩,h⟩,fun h => h.2⟩

/-- The function type and its definition, when the return type is known. -/
theorem createFunction_meets {args : List (TypeID × Str)} {statementId : StatementID} (hk : Knows known s)
    (hplaced : cur.scopeId ∈ s.scopes.scopes) (htext : cur.functionText ≠ []) :
    Meets (onlyIf (returnTypeID cfg s.types cur.returnType ≠ SpecialType.kNotExist) do
        let id ← createFunctionType cur.functionText (returnTypeID cfg s.types cur.returnType) args
        addDefinition cur.scopeId ⟨cur.functionText,id,statementId⟩) s
      fun _ => Records (known ++ Visit.names known ⟨.kFunctionDefinition,cur⟩)
        ((Visit.names known ⟨.kFunctionDefinition,cur⟩).map fun name => (cur.scopeId,name)) s := by
  have hknown : returnTypeID cfg s.types cur.returnType ≠ SpecialType.kNotExist ↔
      cur.returnType ≠ .nil ∧ cur.returnTypeText ∈ known := by
    unfold returnTypeID
    split
    · rename_i h
      simp [h]
    · rename_i h
      rw [TypeSystem.getTypeIDByStr_ne_iff, hk, IR.returnTypeText]
      simp [h]
  apply Meets.onlyIf
  · intro h
    have hnames : Visit.names known ⟨.kFunctionDefinition,cur⟩ = [cur.functionText] := if_pos ⟨htext,hknown.mp h⟩
    apply (createFunctionType_meets ..).bind
    rintro id t ⟨rfl,types,rfl,htypes⟩
    rw [hnames]
    exact created_records hk hplaced htypes
  · intro h
    have hnames : Visit.names known ⟨.kFunctionDefinition,cur⟩ = [] := if_neg fun hc => h (hknown.mpr hc.2)
    rw [hnames, List.append_nil]
    exact ⟨fun _ => Iff.rfl,hk,.refl _⟩

/-- The types of the arguments, and that a message may ask for their names. -/
theorem checkArguments_decides (hk : Knows known s) (arguments : List IR) :
    Decides ((arguments.map fun arg => (typeIDOf cfg s.types arg.typeNode,arg.argumentText)).forM fun a =>
        assertThat ((s.types.getTypePtrByID a.1).isSome = true) .nullDeref : Collect Unit) s
      (∀ arg ∈ arguments, arg.typeText ∈ known) fun _ t => t = s := by
  have hloop : Decides ((arguments.map fun arg => (typeIDOf cfg s.types arg.typeNode,arg.argumentText)).forM fun a =>
        assertThat ((s.types.getTypePtrByID a.1).isSome = true) .nullDeref : Collect Unit) s
      (∀ a ∈ arguments.map fun arg => (typeIDOf cfg s.types arg.typeNode,arg.argumentText),
        (s.types.getTypePtrByID a.1).isSome = true) fun _ t => t = s := by
    apply Decides.forM (P := fun _ t => t = s) _ rfl
    rintro before a t _ rfl
    exact Decides.assertThat
  apply hloop.iff
  rw [List.forall_mem_map]
  have hiff : ∀ arg : IR, (s.types.getTypePtrByID (typeIDOf cfg s.types arg.typeNode)).isSome = true ↔
      arg.typeText ∈ known := fun arg => TypeSystem.getTypePtrByID_isSome_iff.trans (hk _)
  simp only [hiff]

/-- The parameters go to the scope of the body, which is then visited. -/
theorem collectBody_decides {inner : IR → Collect Unit} {vs : List Visit} {args : List (TypeID × Str)}
    {statementId : StatementID} (hk : Knows known s) (hplaced : Placed s cur.functionBody)
    (hargs : ∀ a ∈ args, a.1 ≠ SpecialType.kNotExist) (hvs : cur.functionBody = .nil → vs = [])
    (hinner : cur.functionBody ≠ .nil → ∀ t, Knows known t → Placed t cur.functionBody →
      Decides (inner cur.functionBody) t (VisitsSurvive cfg known vs) fun _ => Collected known vs t) :
    Decides (onlyIf (cur.functionBody ≠ .nil) do
        args.forM fun a => addDefinition cur.functionBody.scopeId ⟨a.2,a.1,statementId⟩
        inner cur.functionBody) s (VisitsSurvive cfg known vs)
      fun _ => Records (knownAfter known vs) ((if cur.functionBody ≠ .nil then
        args.map fun a => (cur.functionBody.scopeId,a.2) else []) ++ entriesOf known vs) s := by
  by_cases hbody : cur.functionBody = .nil
  · rw [hvs hbody, onlyIf, if_neg (not_not.mpr hbody), if_neg (not_not.mpr hbody)]
    refine Decides.iff (c := True) (Decides.pure ?_) (by simp)
    exact Collected.refl hk
  · rw [onlyIf, if_pos hbody, if_pos hbody]
    apply Decides.after (forM_addDefinition (fun a : TypeID × Str => ⟨a.2,a.1,statementId⟩) args
      (hplaced.scopeId hbody) hargs)
    intro _ t ht
    have hrecords := ht.records hk
    apply (hinner hbody t hrecords.names (hrecords.placed hplaced)).congr Iff.rfl
    intro _ _ u hu
    exact hrecords.trans hu

theorem collectFunctionDefinition_decides {inner : IR → Collect Unit} {vs : List Visit} (hk : Knows known s)
    (hplaced : Placed s cur) (hcur : cur ≠ .nil) (hvs : cur.functionText = [] ∨ cur.functionBody = .nil → vs = [])
    (hinner : cur.functionText ≠ [] → cur.functionBody ≠ .nil → ∀ known t, Knows known t → Placed t cur.functionBody →
      Decides (inner cur.functionBody) t (VisitsSurvive cfg known vs) fun _ => Collected known vs t) :
    Decides (collectFunctionDefinition cfg inner cur) s (VisitsSurvive cfg known (⟨.kFunctionDefinition,cur⟩ :: vs))
      fun _ => Collected known (⟨.kFunctionDefinition,cur⟩ :: vs) s := by
  have hrun : Decides (collectFunctionDefinition cfg inner cur) s (cur.functionName ≠ .nil ∧ (cur.functionText ≠ [] →
      (∃ args, argumentsOf cfg s.types cur.functionArguments = .ok args) ∧
        (∀ arg ∈ cur.functionArguments, arg.typeText ∈ known) ∧
        VisitsSurvive cfg (known ++ Visit.names known ⟨.kFunctionDefinition,cur⟩) vs))
      fun _ => Collected known (⟨.kFunctionDefinition,cur⟩ :: vs) s := by
    unfold collectFunctionDefinition
    apply Decides.assertThat.bind
    rintro _ t _ rfl
    by_cases htext : cur.functionText = []
    · have hnames : Visit.names known ⟨.kFunctionDefinition,cur⟩ = [] := if_neg fun h => h.1 htext
      have hentries : Visit.entries known ⟨.kFunctionDefinition,cur⟩ = [] := by
        simp only [Visit.entries, hnames, htext, List.map_nil, ne_eq, not_true, false_and, if_false, List.append_nil]
      have hdone : Collected known (⟨.kFunctionDefinition,cur⟩ :: vs) t t := by
        rw [hvs (.inl htext), Collected, knownAfter_cons, hnames, entriesOf_cons, hentries, List.append_nil]
        exact Collected.refl hk
      refine Decides.iff (c := True) ?_ (by simp [htext])
      change Decides (if cur.functionText = [] then _ else _) t _ _
      rw [if_pos htext]
      exact Decides.pure hdone
    · refine Decides.iff ?_ (forall_prop_of_true htext).symm
      change Decides (if cur.functionText = [] then _ else _) t _ _
      rw [if_neg htext]
      apply Decides.get_bind
      apply (Decides.lift ..).bind
      rintro args u _ ⟨hargs,rfl⟩
      obtain ⟨_,rfl⟩ := argumentsOf_ok_iff.mp hargs
      apply (checkArguments_decides hk cur.functionArguments).bind
      rintro _ v hknown rfl
      apply Decides.after (createFunction_meets hk (hplaced.scopeId hcur) htext)
      intro _ w hw
      have htypes : ∀ a ∈ cur.functionArguments.map fun arg => (typeIDOf cfg v.types arg.typeNode,arg.argumentText),
          a.1 ≠ SpecialType.kNotExist := by
        rw [List.forall_mem_map]
        exact fun arg harg => (typeIDOf_ne_iff hk arg.typeNode).mpr (hknown arg harg)
      apply (collectBody_decides hw.names (hw.placed hplaced.search) htypes (fun h => hvs (.inr h))
        fun hbody t => hinner htext hbody _ t).congr Iff.rfl
      intro _ _ x hx
      have hentries : Visit.entries known ⟨.kFunctionDefinition,cur⟩ =
          (Visit.names known ⟨.kFunctionDefinition,cur⟩).map (fun name => (cur.scopeId,name)) ++
            if cur.functionBody ≠ .nil then
              (cur.functionArguments.map fun arg => (typeIDOf cfg v.types arg.typeNode,arg.argumentText)).map
                fun a => (cur.functionBody.scopeId,a.2)
            else [] := by
        rw [List.map_map]
        simp only [Visit.entries, ne_eq, htext, not_false_eq_true, true_and]
        rfl
      rw [Collected, knownAfter_cons, entriesOf_cons, hentries, List.append_assoc]
      exact hw.trans hx
  apply hrun.iff
  rw [visitsSurvive_cons, Visit.Survives]
  simp only [argumentsOf_ok_iff]
  by_cases htext : cur.functionText = []
  · simp [htext, hvs (.inl htext)]
  · simp [htext, forall_and, and_assoc]

/-- A body lies below the definition. -/
theorem body_lt {n : IRNode} {l r : IR} {type forbid : DataType} (hn : n.dataType ≠ type)
    (h : (IR.searchByDataType type forbid (.node n l r)) ≠ .nil) :
    (IR.searchByDataType type forbid (.node n l r)).values.length < (BinaryTree.node n l r).values.length := by
  obtain ⟨q,m,a,b,hq,htype,heq⟩ := IR.searchByDataType_place h
  rw [heq, ← hq]
  apply values_subtreeAt_lt (by simp)
  rintro rfl
  cases hq
  exact hn htype

def Follows (cfg : Configuration) (inner : IR → Collect Unit) (innerVisits : IR → List Visit) (size : ℕ) : Prop :=
  ∀ body, body ≠ .nil → body.values.length < size → ∀ known s, Knows known s → Placed s body →
    Decides (inner body) s (VisitsSurvive cfg known (innerVisits body)) fun _ => Collected known (innerVisits body) s

theorem collectDefinition_decides {inner : IR → Collect Unit} {innerVisits : IR → List Visit} {size : ℕ}
    (hnil : innerVisits .nil = []) (hinner : Follows cfg inner innerVisits size) (t : IR) (ht : t.values.length ≤ size)
    (hk : Knows known s) (hplaced : Placed s t) :
    Decides (collectDefinition cfg inner t) s (VisitsSurvive cfg known (visitsFrom innerVisits t))
      fun _ => Collected known (visitsFrom innerVisits t) s := by
  induction t generalizing known s with
  | nil => exact Decides.pure (Collected.refl hk)
  | node n l r ihl ihr =>
    by_cases hn : isDefinition n = true
    · have hcur : (BinaryTree.node n l r) ≠ .nil := by simp
      by_cases hclass : IR.findDefineType (.node n l r) = .kClassDefinition
      · have hne : n.dataType ≠ .kClassBody := by
          intro h
          simp [isDefinition, h] at hn
        rw [collectDefinition_class hn hclass, visitsFrom_class hn hclass]
        apply collectStructureDefinition_decides hk hplaced hcur
        intro hbody
        exact hinner _ hbody (lt_of_lt_of_le (body_lt hne hbody) ht) _ _ hk hplaced.search
      · by_cases hfunction : IR.findDefineType (.node n l r) = .kFunctionDefinition
        · have hne : n.dataType ≠ .kFunctionBody := by
            intro h
            simp [isDefinition, h] at hn
          rw [collectDefinition_function hn hfunction, visitsFrom_function hn hfunction]
          apply collectFunctionDefinition_decides hk hplaced hcur
          · rintro (htext | hbody)
            · exact if_pos htext
            · rw [hbody, hnil]
              exact ite_self _
          · intro htext hbody known t hk' hplaced'
            rw [if_neg htext]
            exact hinner _ hbody (lt_of_lt_of_le (body_lt hne hbody) ht) _ _ hk' hplaced'
        · have hsimple : Decides (collectSimpleVariableDefinition cfg (.node n l r)) s _ _ :=
            collectSimpleVariableDefinition_decides (v := ⟨IR.findDefineType (.node n l r),.node n l r⟩) hclass
              hfunction hk (hplaced.scopeId hcur)
          rw [collectDefinition_variable hn hclass hfunction, visitsFrom_variable hn hclass hfunction]
          exact hsimple.iff (by simp)
    · rw [collectDefinition, if_neg hn, visitsFrom_other hn, visitsSurvive_append]
      simp only [values, List.length_cons, List.length_append] at ht
      have hleft : Placed s l := hplaced.subtreeAt [.left]
      have hright : Placed s r := hplaced.subtreeAt [.right]
      apply (ihl (by omega) hk hleft).bind
      intro _ t _ hl
      apply (ihr (by omega) hl.names (hl.placed hright)).congr Iff.rfl
      intro _ _ u hr
      exact hl.trans hr

/-- The call for a body, where the size of the tree is not looked at, and the
outermost call for a tree that is not too large. -/
theorem createSymbolTableRec_decides {fuel recursiveCounter : ℕ} {t : IR} (ht : t.values.length ≤ fuel) (hnil : t ≠ .nil)
    (hcounter : 1 ≤ recursiveCounter) (hsmall : recursiveCounter = 1 → t.getChildNum ≤ 250) (hk : Knows known s)
    (hplaced : Placed s t) :
    Decides (createSymbolTableRec cfg fuel recursiveCounter t) s (VisitsSurvive cfg known (visitsRec fuel t))
      fun _ => Collected known (visitsRec fuel t) s := by
  induction fuel generalizing recursiveCounter t known s with
  | zero =>
    cases t with
    | nil => exact absurd rfl hnil
    | node n l r => simp [values] at ht
  | succ fuel ih =>
    have hgo : ¬ (recursiveCounter = 1 ∧ (t.getChildNum > 250 ∨ t.getChildNum > 1500)) := by omega
    rw [createSymbolTableRec, if_neg hgo, visitsRec]
    by_cases hdef : t.containsDefinition = true
    · rw [onlyIf, if_pos hdef]
      refine collectDefinition_decides (visitsRec_nil fuel) ?_ t ht hk hplaced
      intro body hbody hlt known s hk hplaced
      exact ih (by omega) hbody (by omega) (by omega) hk hplaced
    · rw [onlyIf, if_neg hdef, visitsFrom_eq_nil (by simpa using hdef)]
      exact Decides.pure (Collected.refl hk)

end

end PolyGlot
