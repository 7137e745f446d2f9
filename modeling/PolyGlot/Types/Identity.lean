import PolyGlot.Types.Kinds

set_option autoImplicit false

/-! # The identity of basic types

Each construction of a `TypeSystem` gives the lines of the configuration new ids
in a table that all objects share and that is never emptied.
-/
namespace PolyGlot

open VectorMap

def Configuration.basicTypes (cfg : Configuration) : List Str := cfg.basicTypeStr.filter (· ≠ [])

namespace TypeOp

def isConstruct : TypeOp → Bool
  | .construct => true
  | .call _ _ => false

def createsNoPointer : TypeOp → Bool
  | .construct => true
  | .call _ (.createFunctionType _ _ _ _) => true
  | .call _ (.createCompoundType _ _) => true
  | .call _ _ => false

end TypeOp

def constructions (ops : List TypeOp) : ℕ := ops.countP TypeOp.isConstruct

def TypeStatics.OneName (s : TypeStatics) : Prop :=
  ∀ (id id' : TypeID) (v v' : VarType), s.simple[id]? = some v → s.simple[id']? = some v' → v.name = v'.name → id = id'

/-- Basic types have one identity: one id for a name, which every lookup finds,
in a table that is no larger than one construction makes it. -/
structure BasicIdentity (cfg : Configuration) (w : TypeWorld) : Prop where
  oneName : w.statics.OneName
  lookup : ∀ own ∈ w.objects, ∀ own' ∈ w.objects, ∀ cfg₁ cfg₂ : Configuration, ∀ s ∈ cfg.basicTypes,
    TypeTables.getTypeIDByStr cfg₁ ⟨w.statics,own⟩ s = TypeTables.getTypeIDByStr cfg₂ ⟨w.statics,own'⟩ s
  size : w.statics.simple.size ≤ (TypeStatics.initial.initBasicTypes cfg).simple.size

def Configuration.NoSpecialName (cfg : Configuration) : Prop := ∀ p ∈ TypeStatics.specialTypes, p.2 ∉ cfg.basicTypes

section
variable {s : TypeStatics} {cfg : Configuration}

/-- The lines get the ids from `nextId` on, in order. -/
theorem foldl_addBasic (hs : ∀ id : TypeID, s.nextId ≤ id → s.simple[id]? = none) (lines : List Str) (id : TypeID) :
    (lines.foldl TypeStatics.addBasic s).simple[id]? = if s.nextId ≤ id
      then (lines[(id - s.nextId).toNat]?).map (VarType.simple id) else s.simple[id]? := by
  induction lines generalizing s with
  | nil =>
    by_cases h : s.nextId ≤ id
    · simp [h, hs id h]
    · simp [h]
  | cons line lines ih =>
    have hnext : ∀ i : TypeID, (s.addBasic line).nextId ≤ i → (s.addBasic line).simple[i]? = none := by
      intro i hi
      have hlt : s.nextId < i := Int.lt_of_add_one_le hi
      rw [TypeStatics.addBasic, getElem?_insert_ite, if_neg hlt.ne]
      exact hs i hlt.le
    rw [List.foldl_cons, ih hnext]
    have hid : (s.addBasic line).nextId = s.nextId + 1 := rfl
    rw [hid]
    by_cases hlt : s.nextId + 1 ≤ id
    · have hle : s.nextId ≤ id := (lt_add_one _).le.trans hlt
      obtain ⟨n,hn⟩ : ∃ n : ℕ, id = s.nextId + 1 + n := ⟨(id - (s.nextId + 1)).toNat,by
        rw [Int.toNat_of_nonneg (Int.sub_nonneg_of_le hlt)]
        exact (add_sub_cancel _ _).symm⟩
      rw [if_pos hlt, if_pos hle, hn]
      have h₁ : (s.nextId + 1 + n - (s.nextId + 1) : ℤ).toNat = n := by
        rw [add_sub_cancel_left, Int.toNat_natCast]
      have h₂ : (s.nextId + 1 + n - s.nextId : ℤ).toNat = n + 1 := by
        rw [add_assoc, add_sub_cancel_left, add_comm]
        exact Int.toNat_natCast (n + 1)
      rw [h₁, h₂, List.getElem?_cons_succ]
    · rw [if_neg hlt, TypeStatics.addBasic, getElem?_insert_ite]
      by_cases heq : s.nextId = id
      · rw [if_pos heq, if_pos heq.le, heq]
        simp
      · have hnot : ¬ s.nextId ≤ id := by
          intro hle
          exact hlt (Int.add_one_le_of_lt (lt_of_le_of_ne hle heq))
        rw [if_neg heq, if_neg hnot]

def specialType? (id : TypeID) : Option VarType :=
  (TypeStatics.specialTypes.find? fun p => p.1 = id).map fun p => .simple p.1 p.2

theorem foldl_createBuiltinType (id : TypeID) :
    (TypeStatics.specialTypes.foldl (fun s p => s.createBuiltinType p.1 p.2) s).simple[id]? =
      (specialType? id <|> s.simple[id]?) := by
  simp only [TypeStatics.specialTypes, List.foldl_cons, List.foldl_nil, TypeStatics.createBuiltinType,
    getElem?_insert_ite, specialType?, List.find?]
  by_cases h₁ : SpecialType.kAllTypes = id
  · subst h₁
    simp [SpecialType.kAllTypes, SpecialType.kAllCompoundType, SpecialType.kAllFunction, SpecialType.kAnyType]
  by_cases h₂ : SpecialType.kAllCompoundType = id
  · subst h₂
    simp [SpecialType.kAllTypes, SpecialType.kAllCompoundType, SpecialType.kAllFunction, SpecialType.kAnyType]
  by_cases h₃ : SpecialType.kAllFunction = id
  · subst h₃
    simp [SpecialType.kAllTypes, SpecialType.kAllCompoundType, SpecialType.kAllFunction, SpecialType.kAnyType]
  by_cases h₆ : SpecialType.kAnyType = id
  · subst h₆
    simp [SpecialType.kAllTypes, SpecialType.kAllCompoundType, SpecialType.kAllFunction, SpecialType.kAnyType]
  simp [h₁, h₂, h₃, h₆]

theorem specialType?_none {id : TypeID} (h : 10 ≤ id) : specialType? id = none := by
  rw [specialType?, Option.map_eq_none_iff, List.find?_eq_none]
  intro p hp heq
  have hlt := (specialTypes_lt p hp).2
  rw [of_decide_eq_true heq] at hlt
  exact absurd h (not_le.mpr hlt)

theorem specialType?_some {id : TypeID} {v : VarType} (h : specialType? id = some v) :
    ∃ p ∈ TypeStatics.specialTypes, p.1 = id ∧ v = .simple id p.2 := by
  obtain ⟨p,hp,rfl⟩ := Option.map_eq_some_iff.mp h
  have hid := List.find?_some hp
  rw [of_decide_eq_true hid]
  exact ⟨p,List.mem_of_find?_eq_some hp,of_decide_eq_true hid,rfl⟩

theorem TypeStatics.Ok.unused (hs : s.Ok) : ∀ id : TypeID, s.nextId ≤ id → s.simple[id]? = none := by
  intro id hid
  by_contra h
  obtain ⟨v,hv⟩ := Option.ne_none_iff_exists'.mp h
  exact absurd (hs.bound id v hv).2 (not_lt.mpr hid)

/-- The table after a construction. -/
theorem initBasicTypes_getElem? (hs : s.Ok) (id : TypeID) : (s.initBasicTypes cfg).simple[id]? =
    (specialType? id <|> if s.nextId ≤ id
      then (cfg.basicTypes[(id - s.nextId).toNat]?).map (VarType.simple id) else s.simple[id]?) := by
  unfold TypeStatics.initBasicTypes
  rw [foldl_createBuiltinType, ← Configuration.basicTypes, foldl_addBasic hs.unused]

/-- A type with an id of its own stays where it is. -/
theorem initBasicTypes_old (hs : s.Ok) {id : TypeID} {v : VarType} (hid : 10 ≤ id) (hv : s.simple[id]? = some v) :
    (s.initBasicTypes cfg).simple[id]? = some v := by
  rw [initBasicTypes_getElem? hs, specialType?_none hid, if_neg (not_le.mpr (hs.bound id v hv).2), hv]
  rfl

/-- A construction gives a line a new id. -/
theorem initBasicTypes_new (hs : s.Ok) {line : Str} (hline : line ∈ cfg.basicTypes) :
    ∃ id, s.nextId ≤ id ∧ (s.initBasicTypes cfg).simple[id]? = some (.simple id line) := by
  obtain ⟨i,hi⟩ := List.mem_iff_getElem?.mp hline
  refine ⟨s.nextId + i,le_add_of_nonneg_right (Int.natCast_nonneg i),?_⟩
  have hle : s.nextId ≤ s.nextId + i := le_add_of_nonneg_right (Int.natCast_nonneg i)
  rw [initBasicTypes_getElem? hs, specialType?_none (hs.reserved.trans hle), if_pos hle, add_sub_cancel_left,
    Int.toNat_natCast, hi]
  rfl

theorem apply_statics {t t' : TypeTables} {i : ℕ} {c : TypeCall} (hc : (TypeOp.call i c).createsNoPointer = true)
    (h : c.apply t = .ok t') : t'.statics.simple = t.statics.simple := by
  cases c with
  | createFunctionType | createCompoundType =>
    cases h
    rfl
  | generatePointerType | getOrCreatePointerType => simp [TypeOp.createsNoPointer] at hc

def Copies (line : Str) (s : TypeStatics) (F : Finset TypeID) : Prop :=
  ∀ id ∈ F, 10 ≤ id ∧ s.simple[id]? = some (.simple id line)

/-- Every construction adds a copy of each line. -/
theorem Copies.step {w w' : TypeWorld} {op : TypeOp} {line : Str} {F : Finset TypeID} (hw : w.Ok)
    (hline : line ∈ cfg.basicTypes) (hF : Copies line w.statics F) (hop : op.createsNoPointer = true)
    (h : w.step cfg op = .ok w') :
    ∃ F', Copies line w'.statics F' ∧ F'.card = F.card + if op.isConstruct then 1 else 0 := by
  cases op with
  | construct =>
    obtain ⟨id,hid,hget⟩ := initBasicTypes_new hw.statics hline
    have hnew : id ∉ F := by
      intro hmem
      exact absurd (hw.statics.bound id _ (hF id hmem).2).2 (not_lt.mpr hid)
    cases h
    refine ⟨insert id F,?_,Finset.card_insert_of_notMem hnew⟩
    intro i hi
    rcases Finset.mem_insert.mp hi with rfl | hi
    · exact ⟨hw.statics.reserved.trans hid,hget⟩
    · exact ⟨(hF i hi).1,initBasicTypes_old hw.statics (hF i hi).1 (hF i hi).2⟩
  | call i c =>
    simp only [TypeWorld.step] at h
    split at h
    · cases h
    · split at h
      · cases h
      · rename_i t hcall
        cases h
        have hsame := apply_statics hop hcall
        refine ⟨F,fun id hid => ?_,rfl⟩
        dsimp only
        rw [hsame]
        exact hF id hid

theorem Copies.run {w w' : TypeWorld} {ops : List TypeOp} {line : Str} {F : Finset TypeID} (hw : w.Ok)
    (hline : line ∈ cfg.basicTypes) (hF : Copies line w.statics F) (hops : ∀ op ∈ ops, op.createsNoPointer = true)
    (h : w.run cfg ops = .ok w') : ∃ F', Copies line w'.statics F' ∧ F'.card = F.card + constructions ops := by
  induction ops generalizing w F with
  | nil =>
    cases h
    exact ⟨F,hF,rfl⟩
  | cons op ops ih =>
    obtain ⟨w₁,hstep,hrest⟩ := TypeWorld.of_run_cons h
    obtain ⟨F₁,hF₁,hcard₁⟩ := hF.step hw hline (hops op (List.mem_cons_self ..)) hstep
    obtain ⟨F',hF',hcard⟩ := ih (hw.step hstep) hF₁ (fun op hop => hops op (List.mem_cons_of_mem _ hop)) hrest
    refine ⟨F',hF',?_⟩
    rw [hcard, hcard₁]
    simp only [constructions, List.countP_cons]
    ring

/-- Where a second construction adds nothing, the table is what the first one
made, and empty before it. -/
structure OneTable (cfg : Configuration) (w : TypeWorld) (built : ℕ) : Prop where
  none : built = 0 → w = .initial
  some : built ≠ 0 → ∀ id : TypeID, w.statics.simple[id]? = (TypeStatics.initial.initBasicTypes cfg).simple[id]?

theorem OneTable.step {w w' : TypeWorld} {op : TypeOp} {built : ℕ} (hw : w.Ok) (hbuilt : OneTable cfg w built)
    (hop : op.createsNoPointer = true) (h : w.step cfg op = .ok w')
    (hk : op.isConstruct = true → built = 0 ∨ cfg.basicTypes = []) :
    OneTable cfg w' (built + if op.isConstruct then 1 else 0) := by
  cases op with
  | construct =>
    cases h
    refine ⟨by simp [TypeOp.isConstruct],fun _ id => ?_⟩
    change (w.statics.initBasicTypes cfg).simple[id]? = _
    by_cases hzero : built = 0
    · rw [hbuilt.none hzero]
      rfl
    · have hlines := (hk rfl).resolve_left hzero
      have hfirst : (TypeStatics.initial.initBasicTypes cfg).simple[id]? = specialType? id := by
        rw [initBasicTypes_getElem? TypeStatics.initial_ok, hlines]
        simp [TypeStatics.initial]
      rw [initBasicTypes_getElem? hw.statics, hlines, hbuilt.some hzero id, hfirst]
      cases specialType? id <;> simp
  | call i c =>
    simp only [TypeWorld.step] at h
    split at h
    · cases h
    · split at h
      · cases h
      · rename_i own hi _ t hcall
        cases h
        refine ⟨fun hzero => ?_,fun hne id => ?_⟩
        · rw [hbuilt.none hzero] at hi
          simp [TypeWorld.initial] at hi
        · dsimp only
          rw [apply_statics hop hcall]
          exact hbuilt.some hne id

theorem OneTable.run {w w' : TypeWorld} {ops : List TypeOp} {built : ℕ} (hw : w.Ok) (hbuilt : OneTable cfg w built)
    (hops : ∀ op ∈ ops, op.createsNoPointer = true) (h : w.run cfg ops = .ok w')
    (hk : built + constructions ops ≤ 1 ∨ cfg.basicTypes = []) : OneTable cfg w' (built + constructions ops) := by
  induction ops generalizing w built with
  | nil =>
    cases h
    exact hbuilt
  | cons op ops ih =>
    obtain ⟨w₁,hstep,hnext⟩ := TypeWorld.of_run_cons h
    have hcount : constructions (op :: ops) = constructions ops + if op.isConstruct then 1 else 0 := by
      simp only [constructions, List.countP_cons]
    rw [hcount] at hk
    have hfirst : op.isConstruct = true → built = 0 ∨ cfg.basicTypes = [] := by
      intro hop
      rw [if_pos hop] at hk
      exact hk.imp_left fun hle => by omega
    have hrest := ih (hw.step hstep) (hbuilt.step hw (hops op (List.mem_cons_self ..)) hstep hfirst)
      (fun op hop => hops op (List.mem_cons_of_mem _ hop)) hnext (hk.imp_left fun hle => by omega)
    rw [hcount]
    convert hrest using 1
    omega

/-- What one construction puts into the empty table. -/
theorem initial_getElem? {id : TypeID} {v : VarType}
    (h : (TypeStatics.initial.initBasicTypes cfg).simple[id]? = some v) :
    (∃ p ∈ TypeStatics.specialTypes, p.1 = id ∧ v.name = p.2) ∨
      10 ≤ id ∧ cfg.basicTypes[(id - 10).toNat]? = some v.name := by
  rw [initBasicTypes_getElem? TypeStatics.initial_ok] at h
  cases hspecial : specialType? id with
  | some v' =>
    rw [hspecial] at h
    cases h
    obtain ⟨p,hp,hid,rfl⟩ := specialType?_some hspecial
    exact .inl ⟨p,hp,hid,rfl⟩
  | none =>
    rw [hspecial] at h
    simp only [TypeStatics.initial, Std.TreeMap.getElem?_emptyc] at h
    by_cases hle : (10 : TypeID) ≤ id
    · simp only [hle, if_true] at h
      obtain ⟨line,hline,rfl⟩ := Option.map_eq_some_iff.mp h
      exact .inr ⟨hle,hline⟩
    · simp [hle] at h

theorem special_getElem? {p : TypeID × Str} (hp : p ∈ TypeStatics.specialTypes) :
    (TypeStatics.initial.initBasicTypes cfg).simple[p.1]? = some (.simple p.1 p.2) := by
  have hfind : ∀ p ∈ TypeStatics.specialTypes, specialType? p.1 = some (.simple p.1 p.2) := by
    intro p hp
    simp only [TypeStatics.specialTypes, List.mem_cons, List.not_mem_nil, or_false] at hp
    rcases hp with rfl | rfl | rfl | rfl <;> rfl
  rw [initBasicTypes_getElem? TypeStatics.initial_ok, hfind p hp]
  rfl

theorem oneName_initial (hdistinct : cfg.basicTypeStr.Nodup) :
    (TypeStatics.initial.initBasicTypes cfg).OneName ↔ cfg.NoSpecialName := by
  have hnodup : cfg.basicTypes.Nodup := hdistinct.filter _
  have hspecial : ∀ p ∈ TypeStatics.specialTypes, ∀ q ∈ TypeStatics.specialTypes, p.2 = q.2 → p.1 = q.1 := by decide
  constructor
  · intro hone p hp hmem
    obtain ⟨id,hid,hget⟩ := initBasicTypes_new TypeStatics.initial_ok hmem
    have heq := hone p.1 id _ _ (special_getElem? hp) hget rfl
    have hlt := (specialTypes_lt p hp).2
    rw [heq] at hlt
    exact absurd hid (not_le.mpr hlt)
  · intro hno id id' v v' hv hv' hname
    rcases initial_getElem? hv with ⟨p,hp,rfl,hp'⟩ | ⟨hle,hi⟩ <;>
      rcases initial_getElem? hv' with ⟨q,hq,rfl,hq'⟩ | ⟨hle',hi'⟩
    · exact hspecial p hp q hq (by rw [← hp', ← hq', hname])
    · refine absurd (List.mem_of_getElem? hi') ?_
      rw [← hname, hp']
      exact hno p hp
    · refine absurd (List.mem_of_getElem? hi) ?_
      rw [hname, hq']
      exact hno q hq
    · have hlt := (List.getElem?_eq_some_iff.mp hi).1
      have hidx : (id - 10).toNat = (id' - 10).toNat := (List.getElem?_inj hlt hnodup).mp (by rw [hi, hi', hname])
      have h₁ := Int.toNat_of_nonneg (Int.sub_nonneg_of_le hle)
      have h₂ := Int.toNat_of_nonneg (Int.sub_nonneg_of_le hle')
      rw [← hidx, h₁] at h₂
      exact sub_left_injective h₂

/-- A name that one id of the static table has is found there, in any order. -/
theorem getTypeIDByStr_basic {own : TypeMembers} (hone : s.OneName) {id : TypeID} {v : VarType}
    (hv : s.simple[id]? = some v) (order : Configuration) :
    TypeTables.getTypeIDByStr order ⟨s,own⟩ v.name = id := by
  have hfind : TypeTables.findNamed order v.name s.simple.toList = some id := by
    unfold TypeTables.findNamed
    have hmem : (id, v) ∈ order.hashOrder s.simple.toList :=
      (order.hashOrder_perm _).mem_iff.mpr (Std.TreeMap.mem_toList_iff_getElem?_eq_some.mpr hv)
    cases hfound : (order.hashOrder s.simple.toList).find? fun e => e.2.name = v.name with
    | none => simpa using List.find?_eq_none.mp hfound _ hmem
    | some e =>
      have hname : e.2.name = v.name := by simpa using List.find?_some hfound
      have he := (order.hashOrder_perm _).mem_iff.mp (List.mem_of_find?_eq_some hfound)
      rw [Option.map_some, hone e.1 id e.2 v (Std.TreeMap.mem_toList_iff_getElem?_eq_some.mp he) hv hname]
  simp only [TypeTables.getTypeIDByStr, TypeTables.entries, List.findSome?_cons, hfind, Option.getD_some]

/-- After a run that makes no pointer type, basic types have one identity exactly
when at most one construction has put lines into the table and no line is named
like a special type. -/
theorem basicIdentity_iff {ops : List TypeOp} {w : TypeWorld} (hdistinct : cfg.basicTypeStr.Nodup)
    (hops : ∀ op ∈ ops, op.createsNoPointer = true) (h : TypeWorld.initial.run cfg ops = .ok w) :
    BasicIdentity cfg w ↔
      (constructions ops = 0 ∨ cfg.NoSpecialName) ∧ (constructions ops ≤ 1 ∨ cfg.basicTypes = []) := by
  have hstart : OneTable cfg .initial 0 := ⟨fun _ => rfl,fun hne => absurd rfl hne⟩
  constructor
  · intro hid
    have honce : constructions ops ≤ 1 ∨ cfg.basicTypes = [] := by
      by_contra hnot
      rw [not_or, not_le] at hnot
      obtain ⟨line,hline⟩ := List.exists_mem_of_ne_nil _ hnot.2
      obtain ⟨F,hF,hcard⟩ := Copies.run (F := ∅) TypeWorld.initial_ok hline (by simp [Copies]) hops h
      rw [Finset.card_empty, Nat.zero_add] at hcard
      obtain ⟨a,ha,b,hb,hne⟩ := Finset.one_lt_card.mp (hcard ▸ hnot.1)
      exact hne (hid.oneName a b _ _ (hF a ha).2 (hF b hb).2 rfl)
    have htable := hstart.run TypeWorld.initial_ok hops h (by simpa using honce)
    rw [Nat.zero_add] at htable
    refine ⟨?_,honce⟩
    by_cases hzero : constructions ops = 0
    · exact .inl hzero
    · refine .inr ((oneName_initial hdistinct).mp fun id id' v v' hv hv' => ?_)
      rw [← htable.some hzero] at hv hv'
      exact hid.oneName id id' v v' hv hv'
  · rintro ⟨hspecial,honce⟩
    have htable := hstart.run TypeWorld.initial_ok hops h (by simpa using honce)
    rw [Nat.zero_add] at htable
    by_cases hzero : constructions ops = 0
    · rw [htable.none hzero]
      exact ⟨by simp [TypeStatics.OneName, TypeWorld.initial, TypeStatics.initial],by simp [TypeWorld.initial],
        by simp [TypeWorld.initial, TypeStatics.initial]⟩
    · have hsame := htable.some hzero
      have hone : w.statics.OneName := by
        intro id id' v v' hv hv'
        rw [hsame] at hv hv'
        exact (oneName_initial hdistinct).mpr (hspecial.resolve_left hzero) id id' v v' hv hv'
      refine ⟨hone,?_,(VectorMap.size_eq hsame).le⟩
      intro own _ own' _ cfg₁ cfg₂ line hline
      obtain ⟨id,_,hget⟩ := initBasicTypes_new TypeStatics.initial_ok hline
      rw [← hsame] at hget
      exact (getTypeIDByStr_basic hone hget cfg₁).trans (getTypeIDByStr_basic hone hget cfg₂).symm

def oneConstruction : List TypeOp :=
  [.construct,.call 0 (.createFunctionType "f".toList 10 [10] ["x".toList])]

theorem oneConstruction_basicIdentity : ∃ w, TypeWorld.initial.run (intConfig true) oneConstruction = .ok w ∧
    BasicIdentity (intConfig true) w := by
  have hdistinct : (intConfig true).basicTypeStr.Nodup := by decide
  have hops : ∀ op ∈ oneConstruction, op.createsNoPointer = true := by decide
  have hspecial : (intConfig true).NoSpecialName := by
    intro p hp
    revert p
    decide
  have honce : constructions oneConstruction ≤ 1 := by decide
  exact ⟨_,rfl,(basicIdentity_iff hdistinct hops rfl).mpr ⟨.inr hspecial,.inl honce⟩⟩

/-- Two validations give `INT` two ids. -/
theorem twoConstructions_split : ∃ w, TypeWorld.initial.run (intConfig true) [.construct, .construct] = .ok w ∧
    ¬ BasicIdentity (intConfig true) w := by
  refine ⟨_,rfl,fun hid => ?_⟩
  have heq := hid.oneName 10 11 (.simple 10 "INT".toList) (.simple 11 "INT".toList) rfl rfl rfl
  exact absurd heq (by decide)

end

end PolyGlot
