import PolyGlot.Scope.Symbols

set_option autoImplicit false

/-! # What the whole collection keeps

The collectors change a scope or create a type, in any order and as often as the
tree asks. A relation that these three steps keep is kept by `BuildSymbolTables`.
-/
namespace PolyGlot

open Prog

/-- A preorder on the states of a collection that every step of it keeps. -/
structure KeptByCollectors (R : CollectState → CollectState → Prop) : Prop where
  refl : ∀ s, R s s
  trans : ∀ {s t u}, R s t → R t u → R s u
  addDefinition : ∀ {id d s t}, PolyGlot.addDefinition id d s = .ok ((),t) → R s t
  createFunctionType : ∀ s functionName returnType args argNames,
    R s { s with types := s.types.createFunctionType functionName returnType args argNames }
  createCompoundType : ∀ s structureName members, R s { s with types := s.types.createCompoundType structureName members }

section
variable {R : CollectState → CollectState → Prop} {cfg : Configuration} {inner : IR → Collect Unit} {s : CollectState}

/-- Two programs that keep a relation, one after the other. -/
theorem KeptByCollectors.bind (h : KeptByCollectors R) {α β : Type} {m : Collect α} {f : α → Collect β}
    (hm : Attains m s fun _ t => R s t) (hf : ∀ a t, Attains (f a) t fun _ u => R t u) :
    Attains (m >>= f) s fun _ u => R s u :=
  hm.bind fun a t hst => (hf a t).mono fun _ _ htu => h.trans hst htu

theorem KeptByCollectors.pure (h : KeptByCollectors R) {α : Type} (a : α) :
    Attains (Pure.pure a : Collect α) s fun _ t => R s t := Attains.pure (h.refl s)

/-- A step that only looks. -/
theorem KeptByCollectors.look (h : KeptByCollectors R) {α : Type} {m : Collect α} (hm : Attains m s fun _ t => t = s) :
    Attains m s fun _ t => R s t := by
  apply hm.mono
  rintro _ _ rfl
  exact h.refl _

theorem KeptByCollectors.assertThat (h : KeptByCollectors R) {c : Prop} [Decidable c] {e : Fault} :
    Attains (assertThat c e : Collect Unit) s fun _ t => R s t := h.look (Attains.assertThat.mono fun _ _ ht => ht.2)

theorem KeptByCollectors.forM (h : KeptByCollectors R) {α : Type} {f : α → Collect Unit} (l : List α)
    (hf : ∀ a t, Attains (f a) t fun _ u => R t u) : Attains (l.forM f) s fun _ t => R s t := by
  apply Attains.forM (P := fun _ t => R s t) l (h.refl s)
  intro before a t _ hst
  exact (hf a t).mono fun _ _ htu => h.trans hst htu

theorem KeptByCollectors.addDefinition_keeps (h : KeptByCollectors R) (id : ScopeID) (d : Definition) :
    Attains (PolyGlot.addDefinition id d) s fun _ t => R s t := by
  constructor
  rintro ⟨⟩ t hrun
  exact h.addDefinition hrun

theorem KeptByCollectors.simpleVariable (h : KeptByCollectors R) (cur : IR) :
    Attains (collectSimpleVariableDefinition cfg cur) s fun _ t => R s t := by
  have htype : Attains (simpleType cfg cur) s fun _ t => R s t := by
    unfold simpleType
    dsimp only
    split
    · exact h.pure _
    · apply Attains.get_bind
      split
      · exact h.pure _
      · exact h.bind h.assertThat fun _ t => h.pure _
  apply h.bind htype
  intro type t
  exact h.forM _ fun name u => h.addDefinition_keeps _ _

theorem KeptByCollectors.structureDefinition (h : KeptByCollectors R)
    (hinner : ∀ body t, Attains (inner body) t fun _ u => R t u) (cur : IR) :
    Attains (collectStructureDefinition inner cur) s fun _ t => R s t := by
  unfold collectStructureDefinition
  apply h.bind h.assertThat
  intro _ s
  apply h.bind h.assertThat
  intro _ s
  apply h.bind h.assertThat
  intro _ s
  apply h.bind (h.look ((Attains.lift _).mono fun _ _ ht => ht.2))
  intro name s
  apply h.bind (hinner _ s)
  intro _ s
  have hmembers : Attains (membersOf (cur.searchByDataType .kClassBody .kDataDefault).scopeId) s fun _ t => t = s := by
    constructor
    intro members t hrun
    exact (membersOf_run hrun).1
  apply h.bind (h.look hmembers)
  intro members s
  have hcreate : Attains (PolyGlot.createCompoundType (trim name) members) s fun _ t => R s t := by
    constructor
    rintro id t hrun
    cases hrun
    exact h.createCompoundType ..
  exact h.bind hcreate fun id s => h.addDefinition_keeps _ _

theorem KeptByCollectors.functionDefinition (h : KeptByCollectors R)
    (hinner : ∀ body t, Attains (inner body) t fun _ u => R t u) (cur : IR) :
    Attains (collectFunctionDefinition cfg inner cur) s fun _ t => R s t := by
  unfold collectFunctionDefinition
  apply h.bind h.assertThat
  intro _ s
  dsimp only
  split
  · exact h.pure _
  apply Attains.get_bind
  apply h.bind (h.look ((Attains.lift _).mono fun _ _ ht => ht.2))
  intro args t
  apply h.bind (h.forM args fun a u => h.assertThat)
  intro _ t
  have hfunction : ∀ (name : Str) (returnType : TypeID) (d : TypeID → Definition),
      Attains (onlyIf (returnType ≠ SpecialType.kNotExist) do
        let id ← PolyGlot.createFunctionType name returnType args
        PolyGlot.addDefinition cur.scopeId (d id)) t fun _ u => R t u := by
    intro name returnType d
    apply Attains.onlyIf
    · intro _
      have hcreate : Attains (PolyGlot.createFunctionType name returnType args) t fun _ u => R t u := by
        constructor
        rintro id u hrun
        cases hrun
        exact h.createFunctionType ..
      exact h.bind hcreate fun id u => h.addDefinition_keeps _ _
    · intro _
      exact h.refl t
  apply h.bind (hfunction _ _ fun id => ⟨_,id,_⟩)
  intro _ t
  apply Attains.onlyIf
  · intro _
    exact h.bind (h.forM args fun a u => h.addDefinition_keeps _ _) fun _ u => hinner _ u
  · intro _
    exact h.refl t

theorem KeptByCollectors.definition (h : KeptByCollectors R)
    (hinner : ∀ body t, Attains (inner body) t fun _ u => R t u) (cur : IR) :
    Attains (collectDefinition cfg inner cur) s fun _ t => R s t := by
  induction cur generalizing s with
  | nil => exact h.pure ()
  | node n l r ihl ihr =>
    rw [collectDefinition]
    split
    · split
      · exact h.structureDefinition hinner _
      · exact h.functionDefinition hinner _
      · exact h.simpleVariable _
    · exact h.bind ihl fun _ t => ihr

theorem KeptByCollectors.createSymbolTable (h : KeptByCollectors R) (fuel recursiveCounter : ℕ) (root : IR) :
    Attains (createSymbolTableRec cfg fuel recursiveCounter root) s fun _ t => R s t := by
  induction fuel generalizing recursiveCounter root s with
  | zero => exact Attains.fail
  | succ fuel ih =>
    rw [createSymbolTableRec]
    split
    · exact h.pure ()
    · apply Attains.onlyIf
      · intro _
        exact h.definition (fun body t => ih _ body) root
      · intro _
        exact h.refl s

/-- What the three steps keep, `BuildSymbolTables` keeps. -/
theorem KeptByCollectors.buildSymbolTables (h : KeptByCollectors R) (root : IR) :
    Attains (buildSymbolTables cfg root) s fun _ t => R s t := h.createSymbolTable _ _ _

end

end PolyGlot
