import PolyGlot.Scope.Survival

set_option autoImplicit false

/-! # Symbol collection loses and duplicates nothing

In a tree of ordinary definitions every definition is visited once, and the
symbol tables hold exactly the names of these definitions.
-/
namespace PolyGlot

open BinaryTree Prog

def NamesBasicType (types : TypeSystem) (s : Str) : Prop :=
  ∃ (id : TypeID) (v : VarType), types.statics.simple[id]? = some v ∧ v.name = s

def OnlyInside (body : DataType) (d : IR) : Prop :=
  ∀ q, q ≠ [] → IsAt isDefinition d q → ∃ b, b <+: q ∧ IsAt (ofType body) d b

def bodies (body : DataType) (d : IR) : List IR := outermost (ofType body) (fun _ => false) d

@[mk_iff]
structure VariableShape (d : IR) : Prop where
  alone : ∀ q, q ≠ [] → ¬ IsAt isDefinition d q

@[mk_iff]
structure FunctionShape (types : TypeSystem) (d : IR) : Prop where
  oneBody : (bodies .kFunctionBody d).length ≤ 1
  inside : OnlyInside .kFunctionBody d
  name : d.functionText ≠ []
  returns : d.returnType ≠ .nil ∧ NamesBasicType types d.returnTypeText
  arguments : ∀ arg ∈ d.functionArguments, arg.firstName ≠ .nil ∧ arg.typeNode ≠ .nil ∧
    NamesBasicType types arg.typeText

@[mk_iff]
structure ClassShape (d : IR) : Prop where
  oneBody : (bodies .kClassBody d).length = 1
  inside : OnlyInside .kClassBody d
  name : ∃ name, d.className.getString = .ok name

def Shape (types : TypeSystem) (d : IR) : Prop :=
  match d.dataType? with
  | some .kFunctionDefinition => FunctionShape types d
  | some .kClassDefinition => ClassShape d
  | _ => VariableShape d

/-- The entries of a definition: a function is in its own scope and its parameters
in that of its body, a class and a variable are in their own scopes. -/
def expected (d : IR) : List (ScopeID × Str) :=
  match d.dataType? with
  | some .kFunctionDefinition => (d.scopeId,d.functionText) ::
      if d.functionBody ≠ .nil then d.functionArguments.map fun arg => (d.functionBody.scopeId,arg.argumentText) else []
  | some .kClassDefinition => match d.classText with
    | .ok name => [(d.scopeId,name)]
    | .error _ => []
  | _ => d.variableNames.map fun name => (d.scopeId,name.render)

section Shapes
variable {types : TypeSystem} {d t : IR} {body : DataType} {v : IRNode → Bool}

theorem isAt_dropScopeIds {q : Path} (hp : ∀ n : IRNode, v { n with scopeId := 0 } = v n) :
    IsAt v d.dropScopeIds q ↔ IsAt v d q := by
  unfold IsAt
  rw [IR.dropScopeIds, subtreeAt_map]
  cases d.subtreeAt q with
  | nil => exact Iff.rfl
  | node n l r => simp [map, root?, hp]

theorem bodies_dropScopeIds : bodies body d.dropScopeIds = (bodies body d).map IR.dropScopeIds := outermost_map _ d

theorem onlyInside_dropScopeIds : OnlyInside body d.dropScopeIds ↔ OnlyInside body d := by
  have hdef : ∀ q, IsAt isDefinition d.dropScopeIds q ↔ IsAt isDefinition d q := fun q => isAt_dropScopeIds fun _ => rfl
  have hbody : ∀ q, IsAt (ofType body) d.dropScopeIds q ↔ IsAt (ofType body) d q := fun q => isAt_dropScopeIds fun _ => rfl
  simp only [OnlyInside, hdef, hbody]

/-- The shape of a definition does not depend on scope ids. -/
theorem shape_dropScopeIds : Shape types d.dropScopeIds ↔ Shape types d := by
  unfold Shape
  rw [IR.dataType?_dropScopeIds]
  split
  · simp only [functionShape_iff, bodies_dropScopeIds, List.length_map, onlyInside_dropScopeIds,
      IR.functionText_dropScopeIds, IR.returnType, IR.returnTypeText, IR.functionArguments, IR.firstName, IR.typeNode,
      IR.typeText, IR.search_dropScopeIds, IR.searchAll_dropScopeIds, IR.render_dropScopeIds, ne_eq,
      IR.dropScopeIds_eq_nil, List.forall_mem_map]
  · simp only [classShape_iff, bodies_dropScopeIds, List.length_map, onlyInside_dropScopeIds, IR.className,
      IR.search_dropScopeIds, IR.getString_dropScopeIds]
  · have hdef : ∀ q, IsAt isDefinition d.dropScopeIds q ↔ IsAt isDefinition d q := fun q => isAt_dropScopeIds fun _ => rfl
    simp only [variableShape_iff, hdef]

theorem mem_occurrences_dropScopeIds {root root' : IR} (h : root'.dropScopeIds = root.dropScopeIds)
    (hd : d ∈ occurrences isDefinition root') : ∃ d₀ ∈ occurrences isDefinition root, IR.dropScopeIds d₀ = d.dropScopeIds := by
  have hall : ∀ t : IR, (occurrences isDefinition t).map IR.dropScopeIds = occurrences isDefinition t.dropScopeIds :=
    fun t => (occurrences_map (p := isDefinition) (fun n : IRNode => ({ n with scopeId := 0 } : IRNode)) t).symm
  have hmem : d.dropScopeIds ∈ (occurrences isDefinition root').map IR.dropScopeIds := List.mem_map_of_mem hd
  rw [hall, h, ← hall] at hmem
  exact List.mem_map.mp hmem

theorem search_body : IR.searchByDataType body .kDataDefault d = (bodies body d).headD .nil := by
  have hstop : forbidden .kDataDefault = fun _ => false := by
    funext n
    simp [forbidden]
  rw [IR.searchByDataType_eq, hstop, firstOutermost, bodies]

/-- The definitions inside a function or a class are those in its body. -/
theorem occurrences_body {n : IRNode} {l r : IR} (hinside : OnlyInside body (.node n l r)) (hn : n.dataType ≠ body)
    (hone : (bodies body (.node n l r)).length ≤ 1) :
    occurrences isDefinition l ++ occurrences isDefinition r =
      occurrences isDefinition (IR.searchByDataType body .kDataDefault (.node n l r)) := by
  have hroot : ¬ ofType body n = true := by simpa [ofType] using hn
  have hchild : ∀ s q, IsAt isDefinition ((BinaryTree.node n l r).child s) q →
      ∃ y, y <+: q ∧ IsAt (ofType body) ((BinaryTree.node n l r).child s) y := by
    intro s q hq
    obtain ⟨_ | ⟨s',b⟩,hb,hat⟩ := hinside (s :: q) (by simp) hq
    · exact absurd (isAt_root.mp hat) hroot
    · obtain ⟨rfl,hpre⟩ := List.cons_prefix_cons.mp hb
      exact ⟨b,hpre,hat⟩
  have hbodies : bodies body (.node n l r) = bodies body l ++ bodies body r := by
    simp [bodies, outermost, hroot]
  have hl : occurrences isDefinition l = (bodies body l).flatMap (occurrences isDefinition) :=
    occurrences_inside (hchild .left)
  have hr : occurrences isDefinition r = (bodies body r).flatMap (occurrences isDefinition) :=
    occurrences_inside (hchild .right)
  rw [hl, hr, ← List.flatMap_append, ← hbodies, search_body]
  cases hall : bodies body (.node n l r) with
  | nil => rfl
  | cons b bs =>
    rw [hall, List.length_cons] at hone
    have hnil : bs = [] := List.length_eq_zero_iff.mp (by omega)
    rw [hnil]
    simp

end Shapes

inductive Visit.Proper (types : TypeSystem) (v : Visit) : Prop
  | ofClass (kind : v.kind = .kClassDefinition) (type : v.cur.dataType? = some .kClassDefinition)
      (shape : ClassShape v.cur)
  | ofFunction (kind : v.kind = .kFunctionDefinition) (type : v.cur.dataType? = some .kFunctionDefinition)
      (shape : FunctionShape types v.cur)
  | ofVariable (notClass : v.kind ≠ .kClassDefinition) (notFunction : v.kind ≠ .kFunctionDefinition)
      (type : v.cur.dataType? = some .kVariableDefinition)

section Once
variable {types : TypeSystem} {t : IR} {cfg : Configuration} {known : List Str} {v : Visit} {vs : List Visit}

theorem IR.findDefineType_place {type : DataType} (h : t.findDefineType = type) (htype : type ≠ .kDataDefault) :
    ∃ q, IsAt (ofType type) t q := by
  induction t with
  | nil => exact absurd h.symm htype
  | node n l r ihl ihr =>
    rw [findDefineType] at h
    split at h
    · exact ⟨[],isAt_root.mpr (by simp [ofType, h])⟩
    · split at h
      · obtain ⟨q,hq⟩ := ihr h
        exact ⟨.right :: q,hq⟩
      · obtain ⟨q,hq⟩ := ihl h
        exact ⟨.left :: q,hq⟩

theorem occurrences_subset (q : Path) : occurrences isDefinition (t.subtreeAt q) ⊆ occurrences isDefinition t := by
  intro d hd
  obtain ⟨q',hsub,hat⟩ := mem_occurrences.mp hd
  refine mem_occurrences.mpr ⟨q ++ q',?_,?_⟩
  · rw [subtreeAt_append, hsub]
  · unfold IsAt
    rw [subtreeAt_append]
    exact hat

theorem occurrences_search_subset {type forbid : DataType} :
    occurrences isDefinition (t.searchByDataType type forbid) ⊆ occurrences isDefinition t := by
  by_cases hnil : t.searchByDataType type forbid = .nil
  · rw [hnil]
    exact List.nil_subset _
  · obtain ⟨q,n,l,r,hq,_,heq⟩ := IR.searchByDataType_place hnil
    rw [heq, ← hq]
    exact occurrences_subset q

theorem VariableShape.children {n : IRNode} {l r : IR} (h : VariableShape (.node n l r)) (s : Side) :
    occurrences isDefinition ((BinaryTree.node n l r).child s) = [] := by
  rw [List.eq_nil_iff_forall_not_mem]
  intro d hd
  obtain ⟨q,_,hat⟩ := mem_occurrences.mp hd
  exact h.alone (s :: q) (by simp) hat

/-- A variable definition is not taken for that of a class or of a function. -/
theorem VariableShape.findDefineType_ne {n : IRNode} {l r : IR} (h : VariableShape (.node n l r))
    (hvar : n.dataType = .kVariableDefinition) {type : DataType} (htype : type = .kClassDefinition ∨ type = .kFunctionDefinition) :
    IR.findDefineType (.node n l r) ≠ type := by
  intro heq
  have hdefault : type ≠ .kDataDefault := by rcases htype with rfl | rfl <;> decide
  obtain ⟨q,m,hm,hat⟩ := IR.findDefineType_place heq hdefault
  have hmtype : m.dataType = type := by simpa [ofType] using hat
  have hdef : isDefinition m = true := by rcases htype with rfl | rfl <;> simp [isDefinition, hmtype]
  cases q with
  | nil =>
    cases hm
    rw [hvar] at hmtype
    rcases htype with rfl | rfl <;> cases hmtype
  | cons s q => exact h.alone (s :: q) (by simp) ⟨m,hm,hdef⟩

/-- The visits of a tree of ordinary definitions are proper, and are those of its
definitions, each once. -/
theorem visitsRec_once {depth : ℕ} (ht : t.values.length ≤ depth)
    (hshape : ∀ d ∈ occurrences isDefinition t, Shape types d) :
    (∀ v ∈ visitsRec depth t, v.Proper types) ∧ ((visitsRec depth t).map Visit.cur).Perm (occurrences isDefinition t) := by
  induction depth generalizing t with
  | zero =>
    cases t with
    | nil => exact ⟨by simp [visitsRec],.refl _⟩
    | node n l r => simp [values] at ht
  | succ depth ihd =>
    rw [visitsRec]
    induction t with
    | nil => exact ⟨by simp [visitsFrom],.refl _⟩
    | node n l r ihl ihr =>
      by_cases hn : isDefinition n = true
      · have hself : (BinaryTree.node n l r : IR) ∈ occurrences isDefinition (.node n l r) := by
          simp [occurrences, hn]
        have hall : occurrences isDefinition (.node n l r) =
            .node n l r :: (occurrences isDefinition l ++ occurrences isDefinition r) := by
          simp [occurrences, hn]
        have hmine := hshape _ hself
        -- the visits of a body, by the induction over the depth
        have hbody : ∀ body : DataType, n.dataType ≠ body →
            (∀ v ∈ visitsRec depth (IR.searchByDataType body .kDataDefault (.node n l r)), v.Proper types) ∧
            ((visitsRec depth (IR.searchByDataType body .kDataDefault (.node n l r))).map Visit.cur).Perm
              (occurrences isDefinition (IR.searchByDataType body .kDataDefault (.node n l r))) := by
          intro body hne
          apply ihd
          · by_cases hnil : IR.searchByDataType body .kDataDefault (.node n l r) = .nil
            · rw [hnil]
              exact Nat.zero_le _
            · exact Nat.le_of_lt_succ (lt_of_lt_of_le (body_lt hne hnil) ht)
          · exact fun d hd => hshape d (occurrences_search_subset hd)
        rw [hall]
        have hthree : n.dataType = .kVariableDefinition ∨ n.dataType = .kFunctionDefinition ∨
            n.dataType = .kClassDefinition := by simpa [isDefinition, or_assoc] using hn
        rcases hthree with hvar | hfun | hclass
        · have halone : VariableShape (.node n l r) := by simpa [Shape, IR.dataType?, hvar] using hmine
          have hnotClass := halone.findDefineType_ne hvar (.inl rfl)
          have hnotFunction := halone.findDefineType_ne hvar (.inr rfl)
          have hl : occurrences isDefinition l = [] := halone.children .left
          have hr : occurrences isDefinition r = [] := halone.children .right
          rw [hl, hr, visitsFrom_variable hn hnotClass hnotFunction]
          refine ⟨fun v hv => ?_,.refl _⟩
          rw [List.mem_singleton.mp hv]
          exact .ofVariable hnotClass hnotFunction (by simp [IR.dataType?, hvar])
        · have hkind : IR.findDefineType (.node n l r) = .kFunctionDefinition := by simp [IR.findDefineType, hfun]
          have hfunction : FunctionShape types (.node n l r) := by simpa [Shape, IR.dataType?, hfun] using hmine
          have hne : n.dataType ≠ .kFunctionBody := by simp [hfun]
          obtain ⟨hproper,hperm⟩ := hbody .kFunctionBody hne
          rw [visitsFrom_function hn hkind, if_neg hfunction.name, occurrences_body hfunction.inside hne hfunction.oneBody]
          refine ⟨List.forall_mem_cons.mpr ⟨?_,hproper⟩,hperm.cons _⟩
          exact .ofFunction rfl (by simp [IR.dataType?, hfun]) hfunction
        · have hkind : IR.findDefineType (.node n l r) = .kClassDefinition := by simp [IR.findDefineType, hclass]
          have hshaped : ClassShape (.node n l r) := by simpa [Shape, IR.dataType?, hclass] using hmine
          have hne : n.dataType ≠ .kClassBody := by simp [hclass]
          obtain ⟨hproper,hperm⟩ := hbody .kClassBody hne
          rw [visitsFrom_class hn hkind, occurrences_body hshaped.inside hne hshaped.oneBody.le, List.map_append]
          refine ⟨fun v hv => ?_,(List.perm_append_comm).trans (hperm.cons _)⟩
          rcases List.mem_append.mp hv with hv | hv
          · exact hproper v hv
          · rw [List.mem_singleton.mp hv]
            exact .ofClass rfl (by simp [IR.dataType?, hclass]) hshaped
      · rw [visitsFrom_other hn]
        have hall : occurrences isDefinition (.node n l r) = occurrences isDefinition l ++ occurrences isDefinition r := by
          simp [occurrences, hn]
        simp only [values, List.length_cons, List.length_append] at ht
        obtain ⟨hproperl,hperml⟩ := ihl (by omega) fun d hd => hshape d (by rw [hall]; exact List.mem_append_left _ hd)
        obtain ⟨hproperr,hpermr⟩ := ihr (by omega) fun d hd => hshape d (by rw [hall]; exact List.mem_append_right _ hd)
        refine ⟨fun v hv => ?_,?_⟩
        · rcases List.mem_append.mp hv with hv | hv
          · exact hproperl v hv
          · exact hproperr v hv
        · rw [hall, List.map_append]
          exact hperml.append hpermr

def KnowsBasic (types : TypeSystem) (known : List Str) : Prop := ∀ s, NamesBasicType types s → s ∈ known

theorem Visit.Proper.survives (hv : v.Proper types) (hweak : cfg.isWeakType = true) (hknown : KnowsBasic types known) :
    v.Survives cfg known := by
  unfold Visit.Survives
  cases hv with
  | ofClass kind type shape =>
    rw [kind]
    refine ⟨type,fun hnil => ?_,shape.name⟩
    have hone := shape.oneBody
    rw [IR.classBody, search_body] at hnil
    cases hall : bodies .kClassBody v.cur with
    | nil => simp [hall] at hone
    | cons b bs =>
      rw [hall] at hnil
      obtain ⟨n,l,r,rfl,_⟩ := root_of_mem_outermost (hall ▸ List.mem_cons_self .. : b ∈ bodies .kClassBody v.cur)
      cases hnil
  | ofFunction kind type shape =>
    rw [kind]
    refine ⟨fun hnil => shape.name ?_,fun _ arg harg => ?_⟩
    · rw [IR.functionText, hnil]
      rfl
    · obtain ⟨hname,htype,hbasic⟩ := shape.arguments arg harg
      exact ⟨hname,htype,hknown _ hbasic⟩
  | ofVariable notClass notFunction type =>
    split
    · exact absurd ‹_› notClass
    · exact absurd ‹_› notFunction
    · exact .inl hweak

theorem Visit.Proper.entries_eq (hv : v.Proper types) (hknown : KnowsBasic types known) :
    v.entries known = expected v.cur := by
  unfold Visit.entries expected
  cases hv with
  | ofClass kind type shape =>
    rw [kind, type]
    simp only [Visit.names, kind]
    cases v.cur.classText <;> rfl
  | ofFunction kind type shape =>
    have hnames : v.names known = [v.cur.functionText] := by
      unfold Visit.names
      rw [kind]
      exact if_pos ⟨shape.name,shape.returns.1,hknown _ shape.returns.2⟩
    rw [kind, type]
    simp only [hnames, shape.name, ne_eq, not_false_eq_true, true_and, List.map_cons, List.map_nil, List.singleton_append]
  | ofVariable notClass notFunction type =>
    rw [type]
    split
    · exact absurd ‹_› notClass
    · exact absurd ‹_› notFunction
    · rfl

theorem visitsSurvive_of_proper (hvs : ∀ v ∈ vs, v.Proper types) (hweak : cfg.isWeakType = true)
    (hknown : KnowsBasic types known) : VisitsSurvive cfg known vs := by
  induction vs generalizing known with
  | nil => trivial
  | cons v vs ih =>
    obtain ⟨hv,hvs⟩ := List.forall_mem_cons.mp hvs
    exact ⟨hv.survives hweak hknown,ih hvs fun s hs => List.mem_append_left _ (hknown s hs)⟩

theorem entriesOf_of_proper (hvs : ∀ v ∈ vs, v.Proper types) (hknown : KnowsBasic types known) :
    entriesOf known vs = (vs.map Visit.cur).flatMap expected := by
  induction vs generalizing known with
  | nil => rfl
  | cons v vs ih =>
    obtain ⟨hv,hvs⟩ := List.forall_mem_cons.mp hvs
    rw [entriesOf_cons, hv.entries_eq hknown, ih hvs fun s hs => List.mem_append_left _ (hknown s hs)]
    rfl

end Once

/-- In weak mode the symbols of a tree of ordinary definitions are collected, and
the tables then hold, in some order, what is expected of each definition. -/
theorem buildScopeTreeWithSymbolTable_entries {cfg : Configuration} {before : TypeSystem} {root : IR}
    (hweak : cfg.isWeakType = true) (hroot : IR.isScoped root = true) (hsmall : root.getChildNum ≤ 250)
    (hshape : ∀ d ∈ occurrences isDefinition root, Shape (TypeSystem.construct cfg before) d) :
    ∃ root' scopes s, buildTree root = .ok (root',scopes) ∧ ScopesMirror root root' scopes ∧
      buildScopeTreeWithSymbolTable cfg before root = .ok (root',s) ∧
      s.scopes.entries.Perm ((occurrences isDefinition root').flatMap expected) := by
  obtain ⟨root',scopes,hbuild,hbuilt⟩ := buildTree_built hroot
  have hmirror := hbuilt.scopesMirror
  have hshape' : ∀ d ∈ occurrences isDefinition root', Shape (TypeSystem.construct cfg before) d := by
    intro d hd
    obtain ⟨d₀,hd₀,hsame⟩ := mem_occurrences_dropScopeIds hmirror.same hd
    rw [← shape_dropScopeIds, ← hsame, shape_dropScopeIds]
    exact hshape d₀ hd₀
  have hknown : KnowsBasic (TypeSystem.construct cfg before) (TypeSystem.construct cfg before).names := by
    rintro s ⟨id,v,hv,rfl⟩
    refine TypeSystem.mem_names.mpr ⟨id,v,?_,rfl⟩
    rw [TypeTables.getTypePtrByID, hv]
    rfl
  have hvisits : (∀ v ∈ visits root', v.Proper (TypeSystem.construct cfg before)) ∧
      ((visits root').map Visit.cur).Perm (occurrences isDefinition root') :=
    visitsRec_once (IR.getChildNum_eq root').ge hshape'
  obtain ⟨hproper,hperm⟩ := hvisits
  obtain ⟨⟨⟩,s,hrun,hcollected⟩ := (buildSymbolTables_decides hmirror hroot hsmall).meets
    (visitsSurvive_of_proper hproper hweak hknown)
  refine ⟨root',scopes,s,hbuild,hmirror,?_,?_⟩
  · rw [buildScopeTreeWithSymbolTable_eq hbuild, hrun]
    rfl
  · have hentries := hcollected.entries
    rw [hmirror.entries_eq, List.append_nil, entriesOf_of_proper hproper hknown] at hentries
    exact hentries.trans (hperm.flatMap_right _)

def variableDefinition : IR := plainNode .kVariableDefinition (textLeaf .kVariableName "v".toList) .nil

def classDefinition : IR :=
  plainNode .kClassDefinition (textLeaf .kClassName "S".toList) (plainNode .kClassBody variableDefinition .nil)

def functionDefinition : IR :=
  plainNode .kFunctionDefinition
    (plainNode .kDataDefault (textLeaf .kFunctionReturnType "INT".toList) (textLeaf .kFunctionName "f".toList))
    (plainNode .kDataDefault
      (plainNode .kFunctionArgument (textLeaf .kVariableType "INT".toList) (textLeaf .kVariableName "x".toList))
      (.node ⟨5,none,.monostate,.kFunctionBody,.kScopeFunction,0,0⟩ variableDefinition .nil))

def classAndFunction : IR := programOf (plainNode .kDataDefault classDefinition functionDefinition)

section Witness
variable {d : IR} {body : DataType}

theorem onlyInside_of_postorder (h : ∀ q ∈ d.postorder, q ≠ [] → IsAt isDefinition d q →
    ∃ b ∈ q.inits, IsAt (ofType body) d b) : OnlyInside body d := by
  intro q hq hat
  obtain ⟨b,hb,hbody⟩ := h q hat.mem_postorder hq hat
  exact ⟨b,(List.mem_inits _ _).mp hb,hbody⟩

theorem int_namesBasicType : NamesBasicType (TypeSystem.construct (intConfig true) .initial) "INT".toList :=
  ⟨10,.simple 10 "INT".toList,rfl,rfl⟩

theorem variableDefinition_shape : VariableShape variableDefinition := by
  constructor
  intro q hq hat
  have hnone : ∀ q ∈ postorder variableDefinition, q ≠ [] → ¬ IsAt isDefinition variableDefinition q := by decide
  exact hnone q hat.mem_postorder hq hat

theorem classDefinition_shape : ClassShape classDefinition :=
  ⟨by decide,onlyInside_of_postorder (by decide),"S".toList,rfl⟩

theorem functionDefinition_shape : FunctionShape (TypeSystem.construct (intConfig true) .initial) functionDefinition where
  oneBody := by decide
  inside := onlyInside_of_postorder (by decide)
  name := by decide
  returns := ⟨by decide,int_namesBasicType⟩
  arguments := by
    have hargs : IR.functionArguments functionDefinition =
        [plainNode .kFunctionArgument (textLeaf .kVariableType "INT".toList) (textLeaf .kVariableName "x".toList)] := rfl
    rw [hargs, List.forall_mem_singleton]
    exact ⟨by decide,by decide,int_namesBasicType⟩

theorem classAndFunction_entries : ∃ root' scopes s, buildTree classAndFunction = .ok (root',scopes) ∧
    ScopesMirror classAndFunction root' scopes ∧
    buildScopeTreeWithSymbolTable (intConfig true) .initial classAndFunction = .ok (root',s) ∧
    s.scopes.entries.Perm ((occurrences isDefinition root').flatMap expected) := by
  apply buildScopeTreeWithSymbolTable_entries rfl rfl (by decide)
  have hall : occurrences isDefinition classAndFunction =
      [classDefinition,variableDefinition,functionDefinition,variableDefinition] := rfl
  rw [hall]
  simp only [List.forall_mem_cons, List.not_mem_nil, false_implies, implies_true, and_true]
  exact ⟨classDefinition_shape,variableDefinition_shape,functionDefinition_shape,variableDefinition_shape⟩

end Witness

end PolyGlot
