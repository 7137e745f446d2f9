import PolyGlot.Types.Tables

set_option autoImplicit false

/-! # The kinds of types agree

The ids that a run gives out are new, so no two tables share a key, and every
way to ask for the kind of a type gets the same answer.
-/
namespace PolyGlot

open VectorMap

/-- What holds of the static members: nothing is ever put into the tables of
compound and function types. -/
structure TypeStatics.Ok (s : TypeStatics) : Prop where
  reserved : 10 ≤ s.nextId
  typed : ∀ (id : TypeID) (v : VarType), s.simple[id]? = some v → v.typeId = id ∧ v.kind ≠ .compound ∧ v.kind ≠ .function
  bound : ∀ (id : TypeID) (v : VarType), s.simple[id]? = some v → 0 < id ∧ id < s.nextId
  compound : ∀ id : TypeID, s.compound[id]? = none
  function : ∀ id : TypeID, s.function[id]? = none

structure TypeStatics.Free (s : TypeStatics) (id : TypeID) : Prop where
  ge : 10 ≤ id
  lt : id < s.nextId
  simple : s.simple[id]? = none

structure TypeMembers.Ok (s : TypeStatics) (own : TypeMembers) : Prop where
  simpleVar : ∀ (id : TypeID) (v : VarType), own.simpleVar[id]? = some v →
    s.Free id ∧ v.typeId = id ∧ v.kind ≠ .compound ∧ v.kind ≠ .function
  compound : ∀ (id : TypeID) (c : CompoundType), own.compound[id]? = some c →
    s.Free id ∧ c.typeId = id ∧ own.simpleVar[id]? = none
  function : ∀ (id : TypeID) (f : FunctionType), own.function[id]? = some f →
    s.Free id ∧ f.typeId = id ∧ own.simpleVar[id]? = none ∧ own.compound[id]? = none

structure TypeStatics.Grows (s s' : TypeStatics) : Prop where
  next : s.nextId ≤ s'.nextId
  simple : ∀ id : TypeID, s'.simple[id]? ≠ none → s.simple[id]? ≠ none ∨ s.nextId ≤ id ∨ id < 10

section
variable {s s' s'' : TypeStatics} {own : TypeMembers}

theorem TypeStatics.Grows.refl : s.Grows s := ⟨le_rfl,fun _ h => .inl h⟩

theorem TypeStatics.Grows.trans (h : s.Grows s') (h' : s'.Grows s'') : s.Grows s'' := by
  refine ⟨h.next.trans h'.next,fun id hid => ?_⟩
  rcases h'.simple id hid with hid | hid | hid
  · exact h.simple id hid
  · exact .inr (.inl (h.next.trans hid))
  · exact .inr (.inr hid)

theorem TypeStatics.Free.grows {id : TypeID} (hid : s.Free id) (h : s.Grows s') : s'.Free id := by
  refine ⟨hid.ge,lt_of_lt_of_le hid.lt h.next,?_⟩
  by_contra hne
  rcases h.simple id hne with hold | hnew | hspecial
  · exact hold hid.simple
  · exact absurd hid.lt (not_lt.mpr hnew)
  · exact absurd hid.ge (not_le.mpr hspecial)

/-- What other objects do to the static members does no harm. -/
theorem TypeMembers.Ok.grows (hown : own.Ok s) (h : s.Grows s') : own.Ok s' where
  simpleVar id v hv := ⟨(hown.simpleVar id v hv).1.grows h,(hown.simpleVar id v hv).2⟩
  compound id c hc := ⟨(hown.compound id c hc).1.grows h,(hown.compound id c hc).2⟩
  function id f hf := ⟨(hown.function id f hf).1.grows h,(hown.function id f hf).2⟩

theorem TypeStatics.Ok.addBasic (hs : s.Ok) (line : Str) : (s.addBasic line).Ok where
  reserved := hs.reserved.trans (lt_add_one _).le
  typed := by
    intro id v hv
    rw [TypeStatics.addBasic, getElem?_insert_ite] at hv
    split at hv
    · cases hv
      subst id
      exact ⟨rfl,by simp [VarType.kind],by simp [VarType.kind]⟩
    · exact hs.typed id v hv
  bound := by
    intro id v hv
    rw [TypeStatics.addBasic, getElem?_insert_ite] at hv
    split at hv
    · subst id
      exact ⟨lt_of_lt_of_le (by decide) hs.reserved,lt_add_one _⟩
    · exact ⟨(hs.bound id v hv).1,(hs.bound id v hv).2.trans (lt_add_one _)⟩
  compound := hs.compound
  function := hs.function

theorem TypeStatics.Ok.createBuiltinType (hs : s.Ok) {id : TypeID} (hid : 0 < id ∧ id < 10) (name : Str) :
    (s.createBuiltinType id name).Ok where
  reserved := hs.reserved
  typed := by
    intro i v hv
    rw [TypeStatics.createBuiltinType, getElem?_insert_ite] at hv
    split at hv
    · cases hv
      subst id
      exact ⟨rfl,by simp [VarType.kind],by simp [VarType.kind]⟩
    · exact hs.typed i v hv
  bound := by
    intro i v hv
    rw [TypeStatics.createBuiltinType, getElem?_insert_ite] at hv
    split at hv
    · subst id
      exact ⟨hid.1,lt_of_lt_of_le hid.2 hs.reserved⟩
    · exact hs.bound i v hv
  compound := hs.compound
  function := hs.function

theorem TypeStatics.Grows.addBasic (line : Str) : s.Grows (s.addBasic line) := by
  refine ⟨(lt_add_one _).le,fun id hid => ?_⟩
  rw [TypeStatics.addBasic, getElem?_insert_ite] at hid
  split at hid
  · rename_i h
    exact .inr (.inl h.le)
  · exact .inl hid

theorem TypeStatics.Grows.createBuiltinType {id : TypeID} (hid : id < 10) (name : Str) :
    s.Grows (s.createBuiltinType id name) := by
  refine ⟨le_rfl,fun i hi => ?_⟩
  rw [TypeStatics.createBuiltinType, getElem?_insert_ite] at hi
  split at hi
  · rename_i h
    exact .inr (.inr (h ▸ hid))
  · exact .inl hi

theorem specialTypes_lt : ∀ p ∈ TypeStatics.specialTypes, 0 < p.1 ∧ p.1 < 10 := by decide

theorem initBasicTypes_ok (cfg : Configuration) (hs : s.Ok) :
    (s.initBasicTypes cfg).Ok ∧ s.Grows (s.initBasicTypes cfg) := by
  have hlines := List.foldlRecOn (motive := fun s' : TypeStatics => s'.Ok ∧ s.Grows s')
    (cfg.basicTypeStr.filter (· ≠ [])) TypeStatics.addBasic ⟨hs,.refl⟩
    fun s' h line _ => ⟨h.1.addBasic line,h.2.trans (.addBasic line)⟩
  exact List.foldlRecOn (motive := fun s' : TypeStatics => s'.Ok ∧ s.Grows s') TypeStatics.specialTypes _ hlines
    fun s' h p hp => ⟨h.1.createBuiltinType (specialTypes_lt p hp) p.2,
      h.2.trans (.createBuiltinType (specialTypes_lt p hp).2 p.2)⟩

def TypeStatics.skip (s : TypeStatics) : TypeStatics := { s with nextId := s.nextId + 1 }

theorem TypeStatics.Ok.skip (hs : s.Ok) : s.skip.Ok where
  reserved := hs.reserved.trans (lt_add_one _).le
  typed := hs.typed
  bound id v hv := ⟨(hs.bound id v hv).1,(hs.bound id v hv).2.trans (lt_add_one _)⟩
  compound := hs.compound
  function := hs.function

theorem TypeStatics.Grows.skip : s.Grows s.skip := ⟨(lt_add_one _).le,fun _ h => .inl h⟩

theorem TypeStatics.Ok.free (hs : s.Ok) : s.skip.Free s.nextId where
  ge := hs.reserved
  lt := lt_add_one _
  simple := by
    by_contra h
    obtain ⟨v,hv⟩ := Option.ne_none_iff_exists'.mp h
    exact absurd (hs.bound _ v hv).2 (lt_irrefl _)

theorem none_of_free {α : Type} {o : Option α} (h : ∀ a, o = some a → s.Free s.nextId) : o = none := by
  cases o with
  | none => rfl
  | some a => exact absurd (h a rfl).lt (lt_irrefl _)

theorem TypeMembers.Ok.simpleVar_next (hown : own.Ok s) : own.simpleVar[s.nextId]? = none :=
  none_of_free fun v hv => (hown.simpleVar _ v hv).1

theorem TypeMembers.Ok.compound_next (hown : own.Ok s) : own.compound[s.nextId]? = none :=
  none_of_free fun c hc => (hown.compound _ c hc).1

theorem TypeMembers.Ok.function_next (hown : own.Ok s) : own.function[s.nextId]? = none :=
  none_of_free fun f hf => (hown.function _ f hf).1

theorem TypeMembers.Ok.addFunction (hs : s.Ok) (hown : own.Ok s) {f : FunctionType} (hf : f.typeId = s.nextId) :
    TypeMembers.Ok s.skip { own with function := own.function.insert s.nextId f } where
  simpleVar := (hown.grows .skip).simpleVar
  compound := (hown.grows .skip).compound
  function := by
    intro id g hg
    rw [getElem?_insert_ite] at hg
    split at hg
    · cases hg
      subst id
      exact ⟨hs.free,hf,hown.simpleVar_next,hown.compound_next⟩
    · exact (hown.grows .skip).function id g hg

theorem TypeMembers.Ok.addCompound (hs : s.Ok) (hown : own.Ok s) {c : CompoundType} (hc : c.typeId = s.nextId) :
    TypeMembers.Ok s.skip { own with compound := own.compound.insert s.nextId c } where
  simpleVar := (hown.grows .skip).simpleVar
  compound := by
    intro id d hd
    rw [getElem?_insert_ite] at hd
    split at hd
    · cases hd
      subst id
      exact ⟨hs.free,hc,hown.simpleVar_next⟩
    · exact (hown.grows .skip).compound id d hd
  function := by
    intro id f hf
    obtain ⟨hfree,hid,hsimple,hcompound⟩ := (hown.grows .skip).function id f hf
    refine ⟨hfree,hid,hsimple,?_⟩
    rw [getElem?_insert_ite]
    split
    · rename_i h
      have hnone := hown.function_next
      rw [h] at hnone
      exact absurd (hnone.symm.trans hf) (by simp)
    · exact hcompound

theorem TypeMembers.Ok.addSimpleVar (hs : s.Ok) (hown : own.Ok s) {p : PointerType} (hp : p.typeId = s.nextId) :
    TypeMembers.Ok s.skip { own with simpleVar := own.simpleVar.insert s.nextId (.pointer p) } where
  simpleVar := by
    intro id v hv
    rw [getElem?_insert_ite] at hv
    split at hv
    · cases hv
      subst id
      exact ⟨hs.free,hp,by simp [VarType.kind],by simp [VarType.kind]⟩
    · exact (hown.grows .skip).simpleVar id v hv
  compound := by
    intro id c hc
    obtain ⟨hfree,hid,hsimple⟩ := (hown.grows .skip).compound id c hc
    refine ⟨hfree,hid,?_⟩
    rw [getElem?_insert_ite]
    split
    · rename_i h
      have hnone := hown.compound_next
      rw [h] at hnone
      exact absurd (hnone.symm.trans hc) (by simp)
    · exact hsimple
  function := by
    intro id f hf
    obtain ⟨hfree,hid,hsimple,hcompound⟩ := (hown.grows .skip).function id f hf
    refine ⟨hfree,hid,?_,hcompound⟩
    rw [getElem?_insert_ite]
    split
    · rename_i h
      have hnone := hown.function_next
      rw [h] at hnone
      exact absurd (hnone.symm.trans hf) (by simp)
    · exact hsimple

theorem TypeStatics.Ok.addPointer (hs : s.Ok) {p : PointerType} {id : TypeID} (hp : p.typeId = id)
    (hid : 0 < id ∧ id < s.nextId) : TypeStatics.Ok { s with simple := s.simple.insert id (.pointer p) } where
  reserved := hs.reserved
  typed := by
    intro i v hv
    rw [getElem?_insert_ite] at hv
    split at hv
    · cases hv
      subst i
      exact ⟨hp,by simp [VarType.kind],by simp [VarType.kind]⟩
    · exact hs.typed i v hv
  bound := by
    intro i v hv
    rw [getElem?_insert_ite] at hv
    split at hv
    · subst i
      exact hid
    · exact hs.bound i v hv
  compound := hs.compound
  function := hs.function

structure TypeTables.Kept (t t' : TypeTables) : Prop where
  statics : t'.statics.Ok
  own : t'.own.Ok t'.statics
  grows : t.statics.Grows t'.statics

theorem TypeTables.Kept.refl {t : TypeTables} (hs : t.statics.Ok) (hown : t.own.Ok t.statics) : t.Kept t :=
  ⟨hs,hown,.refl⟩

def TypeMembers.SameTables (own own' : TypeMembers) : Prop :=
  own'.simpleVar = own.simpleVar ∧ own'.compound = own.compound ∧ own'.function = own.function

theorem TypeMembers.Ok.sameTables {own' : TypeMembers} (hown : own.Ok s) (h : own.SameTables own') : own'.Ok s := by
  obtain ⟨hsimple,hcompound,hfunction⟩ := h
  refine ⟨?_,?_,?_⟩
  · rw [hsimple]
    exact hown.simpleVar
  · rw [hsimple, hcompound]
    exact hown.compound
  · rw [hsimple, hcompound, hfunction]
    exact hown.function

theorem generatePointerType_own {t t' : TypeTables} {originalType id : TypeID} {level : ℕ}
    (h : t.generatePointerType originalType level = .ok (t', id)) : t.own.SameTables t'.own := by
  induction level generalizing t t' id with
  | zero => simp [TypeTables.generatePointerType] at h
  | succ level ih =>
    unfold TypeTables.generatePointerType at h
    dsimp only at h
    split at h
    · cases h
      exact ⟨rfl,rfl,rfl⟩
    · split at h
      · cases h
      · rename_i t₁ base hrun
        cases h
        split at hrun
        · cases hrun
          exact ⟨rfl,rfl,rfl⟩
        · have hsame := ih hrun
          exact hsame

/-- The type gets its id before the types of lower levels, and its entry after
them. -/
theorem generatePointerType_statics {t t' : TypeTables} {originalType id : TypeID} {level : ℕ} (hs : t.statics.Ok)
    (h : t.generatePointerType originalType level = .ok (t', id)) : t'.statics.Ok ∧ t.statics.Grows t'.statics := by
  induction level generalizing t t' id with
  | zero => simp [TypeTables.generatePointerType] at h
  | succ level ih =>
    unfold TypeTables.generatePointerType at h
    dsimp only at h
    split at h
    · cases h
      exact ⟨hs,.refl⟩
    · split at h
      · cases h
      · rename_i t₁ base hrun
        have hskip : (t.touchLevels originalType).genTypeId.statics.Ok := hs.skip
        have hrest : t₁.statics.Ok ∧ t.statics.skip.Grows t₁.statics := by
          split at hrun
          · cases hrun
            exact ⟨hskip,.refl⟩
          · exact ih hskip hrun
        obtain ⟨hs₁,hgrows₁⟩ := hrest
        have hlt : t.statics.nextId < t₁.statics.nextId := lt_of_lt_of_le (lt_add_one _) hgrows₁.next
        cases h
        have hpos : 0 < t.statics.nextId := lt_of_lt_of_le (by decide) hs.reserved
        refine ⟨hs₁.addPointer rfl ⟨hpos,hlt⟩,hlt.le,fun i hi => ?_⟩
        simp only [TypeTables.setLevel] at hi
        rw [getElem?_insert_ite] at hi
        split at hi
        · rename_i hid
          exact .inr (.inl hid.le)
        · exact (TypeStatics.Grows.trans .skip hgrows₁).simple i hi

theorem generatePointerType_kept {t t' : TypeTables} {originalType id : TypeID} {level : ℕ} (hs : t.statics.Ok)
    (hown : t.own.Ok t.statics) (h : t.generatePointerType originalType level = .ok (t', id)) : t.Kept t' := by
  obtain ⟨hs',hgrows⟩ := generatePointerType_statics hs h
  exact ⟨hs',(hown.grows hgrows).sameTables (generatePointerType_own h),hgrows⟩

theorem addPointer_kept {t : TypeTables} (type originalType : TypeID) (level : ℕ) (hs : t.statics.Ok)
    (hown : t.own.Ok t.statics) : t.Kept (t.addPointer type originalType level).1 := by
  refine ⟨hs.skip,?_,.skip⟩
  have hown' := hown.addSimpleVar hs
    (p := ⟨t.statics.nextId,TypeTables.pointerName t.statics.nextId,type,originalType,level⟩) rfl
  exact hown'.sameTables ⟨rfl,rfl,rfl⟩

theorem TypeCall.apply_kept {t t' : TypeTables} {c : TypeCall} (hs : t.statics.Ok) (hown : t.own.Ok t.statics)
    (h : c.apply t = .ok t') : t.Kept t' := by
  cases c with
  | createFunctionType functionName returnType args argNames =>
    cases h
    exact ⟨hs.skip,hown.addFunction hs rfl,.skip⟩
  | createCompoundType structureName members =>
    cases h
    exact ⟨hs.skip,hown.addCompound hs rfl,.skip⟩
  | generatePointerType originalType level =>
    simp only [TypeCall.apply] at h
    cases hrun : t.generatePointerType originalType level with
    | error f => simp [hrun, Except.map] at h
    | ok r =>
      rw [hrun] at h
      cases h
      exact generatePointerType_kept hs hown hrun
  | getOrCreatePointerType type =>
    cases h
    unfold TypeTables.getOrCreatePointerType
    split
    · exact addPointer_kept _ _ _ hs hown
    · split
      · exact .refl hs hown
      · exact addPointer_kept _ _ _ hs hown

theorem TypeMembers.empty_ok : TypeMembers.Ok s ⟨∅,∅,∅,∅⟩ := ⟨by simp,by simp,by simp⟩

structure TypeWorld.Ok (w : TypeWorld) : Prop where
  statics : w.statics.Ok
  objects : ∀ own ∈ w.objects, own.Ok w.statics

theorem TypeWorld.Ok.step {cfg : Configuration} {w w' : TypeWorld} {op : TypeOp} (hw : w.Ok)
    (h : w.step cfg op = .ok w') : w'.Ok := by
  cases op with
  | construct =>
    obtain ⟨hs,hgrows⟩ := initBasicTypes_ok cfg hw.statics
    cases h
    refine ⟨hs,fun own hown => ?_⟩
    rcases List.mem_append.mp hown with hown | hown
    · exact (hw.objects own hown).grows hgrows
    · rw [List.mem_singleton.mp hown]
      exact TypeMembers.empty_ok
  | call i c =>
    simp only [TypeWorld.step] at h
    split at h
    · cases h
    · rename_i own₀ hi
      split at h
      · cases h
      · rename_i t hcall
        cases h
        have hown₀ := hw.objects own₀ (List.mem_of_getElem? hi)
        obtain ⟨hs,hown',hgrows⟩ := TypeCall.apply_kept hw.statics hown₀ hcall
        refine ⟨hs,fun own hown => ?_⟩
        rcases List.mem_or_eq_of_mem_set hown with hown | rfl
        · exact (hw.objects own hown).grows hgrows
        · exact hown'

theorem TypeStatics.initial_ok : initial.Ok :=
  ⟨le_rfl,by simp [initial],by simp [initial],by simp [initial],by simp [initial]⟩

theorem TypeWorld.initial_ok : initial.Ok := ⟨TypeStatics.initial_ok,by simp [initial]⟩

/-- The first step of a run, and the run after it. -/
theorem TypeWorld.of_run_cons {cfg : Configuration} {op : TypeOp} {ops : List TypeOp} {w w' : TypeWorld}
    (h : w.run cfg (op :: ops) = .ok w') : ∃ w₁, w.step cfg op = .ok w₁ ∧ w₁.run cfg ops = .ok w' := by
  unfold TypeWorld.run at h
  cases hstep : w.step cfg op with
  | error f => simp [hstep] at h
  | ok w₁ =>
    rw [hstep] at h
    exact ⟨w₁,rfl,h⟩

theorem TypeWorld.Ok.run {cfg : Configuration} {ops : List TypeOp} {w w' : TypeWorld} (hw : w.Ok)
    (h : w.run cfg ops = .ok w') : w'.Ok := by
  induction ops generalizing w with
  | nil =>
    cases h
    exact hw
  | cons op ops ih =>
    obtain ⟨w₁,hstep,hrest⟩ := TypeWorld.of_run_cons h
    exact ih (hw.step hstep) hrest

namespace TypeTables

def found (t : TypeTables) (id : TypeID) : List (Option VarType) :=
  [t.statics.simple[id]?, t.statics.compound[id]?.map .compound, t.statics.function[id]?.map .function,
    t.own.simpleVar[id]?, t.own.compound[id]?.map .compound, t.own.function[id]?.map .function]

structure KindsAgree (t : TypeTables) (id : TypeID) : Prop where
  one : (t.found id).countP Option.isSome ≤ 1
  typeId : ∀ v, some v ∈ t.found id → v.typeId = id
  isFunctionType : t.isFunctionType id = true ↔ ∃ v, t.getTypePtrByID id = some v ∧ v.kind = .function
  getFunctionType : ∀ v, t.getTypePtrByID id = some v → v.kind = .function →
    (t.getFunctionType id).map .function = some v
  isCompoundType : t.isCompoundType id = true ↔ ∃ v, t.getTypePtrByID id = some v ∧ v.kind = .compound
  getCompoundType : ∀ v, t.getTypePtrByID id = some v → v.kind = .compound →
    (t.getCompoundType id).map .compound = some v

/-- Where an id can be found, with what is then known about the other tables. -/
theorem found_cases {t : TypeTables} (hs : t.statics.Ok) (hown : t.own.Ok t.statics) (id : TypeID) :
    (∃ v, v.typeId = id ∧ v.kind ≠ .compound ∧ v.kind ≠ .function ∧
      (t.found id = [some v, none, none, none, none, none] ∨ t.found id = [none, none, none, some v, none, none])) ∨
    (∃ c : CompoundType, c.typeId = id ∧ t.found id = [none, none, none, none, some (.compound c), none]) ∨
    (∃ f : FunctionType, f.typeId = id ∧ t.found id = [none, none, none, none, none, some (.function f)]) ∨
    t.found id = [none, none, none, none, none, none] := by
  unfold found
  rw [hs.compound id, hs.function id]
  cases hfunction : t.own.function[id]? with
  | some f =>
    obtain ⟨hfree,hid,hsimple,hcompound⟩ := hown.function id f hfunction
    rw [hfree.simple, hsimple, hcompound]
    exact .inr (.inr (.inl ⟨f,hid,rfl⟩))
  | none =>
    cases hcompound : t.own.compound[id]? with
    | some c =>
      obtain ⟨hfree,hid,hsimple⟩ := hown.compound id c hcompound
      rw [hfree.simple, hsimple]
      exact .inr (.inl ⟨c,hid,rfl⟩)
    | none =>
      cases hvar : t.own.simpleVar[id]? with
      | some v =>
        obtain ⟨hfree,hid,hkind⟩ := hown.simpleVar id v hvar
        rw [hfree.simple]
        exact .inl ⟨v,hid,hkind.1,hkind.2,.inr rfl⟩
      | none =>
        cases hsimple : t.statics.simple[id]? with
        | some v =>
          obtain ⟨hid,hkind⟩ := hs.typed id v hsimple
          exact .inl ⟨v,hid,hkind.1,hkind.2,.inl rfl⟩
        | none => exact .inr (.inr (.inr rfl))

/-- The answers about an id, from what the tables hold under it. -/
theorem answers (t : TypeTables) (id : TypeID) {o₁ o₂ o₃ o₄ o₅ o₆ : Option VarType}
    (h : t.found id = [o₁, o₂, o₃, o₄, o₅, o₆]) :
    t.getTypePtrByID id = (o₁ <|> o₂ <|> o₃ <|> o₄ <|> o₅ <|> o₆) ∧
      t.isCompoundType id = (o₂.isSome || o₅.isSome) ∧ t.isFunctionType id = (o₃.isSome || o₆.isSome) ∧
      (t.getCompoundType id).map .compound = (o₅ <|> o₂) ∧ (t.getFunctionType id).map .function = (o₆ <|> o₃) := by
  simp only [found, List.cons.injEq, and_true] at h
  obtain ⟨rfl,rfl,rfl,rfl,rfl,rfl⟩ := h
  refine ⟨rfl,?_,?_,?_,?_⟩
  · simp only [isCompoundType, Std.TreeMap.contains_eq_isSome_getElem?, Option.isSome_map]
  · simp only [isFunctionType, Std.TreeMap.contains_eq_isSome_getElem?, Option.isSome_map]
  · unfold getCompoundType
    cases t.own.compound[id]? <;> rfl
  · unfold getFunctionType
    cases t.own.function[id]? <;> rfl

theorem kindsAgree {t : TypeTables} (hs : t.statics.Ok) (hown : t.own.Ok t.statics) (id : TypeID) :
    t.KindsAgree id := by
  rcases found_cases hs hown id with ⟨v,hid,hcompound,hfunction,h | h⟩ | ⟨c,hid,h⟩ | ⟨f,hid,h⟩ | h <;>
    obtain ⟨hptr,hisCompound,hisFunction,hgetCompound,hgetFunction⟩ := answers t id h
  · exact ⟨by simp [h],by simp [h, hid],by simp [hisFunction, hptr, hfunction],by simp [hptr, hfunction],
      by simp [hisCompound, hptr, hcompound],by simp [hptr, hcompound]⟩
  · exact ⟨by simp [h],by simp [h, hid],by simp [hisFunction, hptr, hfunction],by simp [hptr, hfunction],
      by simp [hisCompound, hptr, hcompound],by simp [hptr, hcompound]⟩
  · exact ⟨by simp [h],by simp [h, hid, VarType.typeId],by simp [hisFunction, hptr, VarType.kind],
      by simp [hptr, VarType.kind],by simp [hisCompound, hptr, VarType.kind],by simp [hptr, hgetCompound]⟩
  · exact ⟨by simp [h],by simp [h, hid, VarType.typeId],by simp [hisFunction, hptr, VarType.kind],
      by simp [hptr, hgetFunction],by simp [hisCompound, hptr, VarType.kind],by simp [hptr, VarType.kind]⟩
  · exact ⟨by simp [h],by simp [h],by simp [hisFunction, hptr],by simp [hptr],by simp [hisCompound, hptr],
      by simp [hptr]⟩

end TypeTables

/-- After any run, each object gets one answer about the kind of each id. -/
theorem run_kindsAgree {cfg : Configuration} {ops : List TypeOp} {w : TypeWorld}
    (h : TypeWorld.initial.run cfg ops = .ok w) :
    ∀ own ∈ w.objects, ∀ id, TypeTables.KindsAgree ⟨w.statics,own⟩ id := by
  intro own hown id
  have hw := TypeWorld.initial_ok.run h
  exact TypeTables.kindsAgree hw.statics (hw.objects own hown) id

def intConfig (weak : Bool) : Configuration where
  isWeakType := weak
  basicTypeStr := ["INT".toList]
  hashOrder := id
  hashOrder_perm := fun _ => .rfl

def mixedOps : List TypeOp :=
  [.construct,.call 0 (.createFunctionType "f".toList 10 [10] ["x".toList]),.construct,
   .call 1 (.createCompoundType "S".toList [(10, "a".toList), (11, "g".toList)]),.call 0 (.generatePointerType 10 2),
   .call 1 (.getOrCreatePointerType 13),.call 0 (.getOrCreatePointerType 10)]

theorem mixedRun_kindsAgree : ∃ w, TypeWorld.initial.run (intConfig true) mixedOps = .ok w ∧ w.objects.length = 2 ∧
    ∀ own ∈ w.objects, ∀ id, TypeTables.KindsAgree ⟨w.statics,own⟩ id := by
  have hrun : (TypeWorld.initial.run (intConfig true) mixedOps).toOption.map (·.objects.length) = some 2 := by
    decide +kernel
  cases h : TypeWorld.initial.run (intConfig true) mixedOps with
  | error f => simp [h, Except.toOption] at hrun
  | ok w =>
    rw [h] at hrun
    exact ⟨w,rfl,Option.some.inj hrun,run_kindsAgree h⟩

end

end PolyGlot
