import PolyGlot.Fuzzer.Fixing
import PolyGlot.Scope.Kept
import PolyGlot.Types.Identity

set_option autoImplicit false

/-! # The static type table over a campaign

Every validation constructs a type system, and the table of its basic types is
static. So each test case of the semantic mode leaves the types of the
configuration there once more, for the rest of the process.
-/
namespace PolyGlot

open TreeHeap Prog VectorMap

section
variable {cfg : Configuration} {s : TypeStatics} {n : ℕ}

structure TypesBuilt (cfg : Configuration) (n : ℕ) (s : TypeStatics) : Prop where
  none : n = 0 → ∀ id : TypeID, s.simple[id]? = none
  special : n ≠ 0 → ∀ p ∈ TypeStatics.specialTypes, (s.simple[p.1]?).isSome
  size : s.simple.size = (if n = 0 then 0 else 4) + n * cfg.basicTypes.length
  nextId : 10 + n * cfg.basicTypes.length ≤ s.nextId

theorem TypesBuilt.initial (cfg : Configuration) : TypesBuilt cfg 0 .initial := by
  refine ⟨fun _ id => ?_,fun h => absurd rfl h,?_,?_⟩
  · simp [TypeStatics.initial]
  · simp [TypeStatics.initial]
  · simp [TypeStatics.initial]

theorem TypesBuilt.congr {s' : TypeStatics} (h : TypesBuilt cfg n s) (hsimple : s'.simple = s.simple)
    (hnext : s.nextId ≤ s'.nextId) : TypesBuilt cfg n s' := by
  refine ⟨fun hn id => ?_,fun hn p hp => ?_,?_,h.nextId.trans hnext⟩
  · rw [hsimple]
    exact h.none hn id
  · rw [hsimple]
    exact h.special hn p hp
  · rw [hsimple]
    exact h.size

theorem size_insert (m : Std.TreeMap TypeID VarType) (id : TypeID) (v : VarType) :
    (m.insert id v).size = if id ∈ m then m.size else m.size + 1 := by
  rw [Std.TreeMap.size_insert]
  rfl

/-- Each line takes a new id. -/
theorem foldl_addBasic_size (hs : ∀ id : TypeID, s.nextId ≤ id → s.simple[id]? = none) (lines : List Str) :
    (lines.foldl TypeStatics.addBasic s).simple.size = s.simple.size + lines.length ∧
      (lines.foldl TypeStatics.addBasic s).nextId = s.nextId + lines.length := by
  induction lines generalizing s with
  | nil => simp
  | cons line lines ih =>
    have hnew : s.nextId ∉ s.simple := by
      rw [← Std.TreeMap.isSome_getElem?_iff_mem, hs s.nextId le_rfl]
      decide
    have hnext : ∀ i : TypeID, (s.addBasic line).nextId ≤ i → (s.addBasic line).simple[i]? = none := by
      intro i hi
      have hlt : s.nextId < i := Int.lt_of_add_one_le hi
      rw [TypeStatics.addBasic, getElem?_insert_ite, if_neg hlt.ne]
      exact hs i hlt.le
    obtain ⟨hsize,hid⟩ := ih hnext
    rw [List.foldl_cons, hsize, hid, List.length_cons]
    constructor
    · rw [TypeStatics.addBasic, size_insert, if_neg hnew]
      omega
    · rw [TypeStatics.addBasic]
      push_cast
      ring

/-- Types that are there are replaced. -/
theorem foldl_createBuiltinType_there (ps : List (TypeID × Str)) (h : ∀ p ∈ ps, p.1 ∈ s.simple) :
    (ps.foldl (fun s p => s.createBuiltinType p.1 p.2) s).simple.size = s.simple.size := by
  induction ps generalizing s with
  | nil => rfl
  | cons p ps ih =>
    obtain ⟨hp,hrest⟩ := List.forall_mem_cons.mp h
    have hsize : (s.createBuiltinType p.1 p.2).simple.size = s.simple.size := by
      rw [TypeStatics.createBuiltinType, size_insert, if_pos hp]
    rw [List.foldl_cons, ih, hsize]
    intro q hq
    exact Std.TreeMap.mem_insert.mpr (.inr (hrest q hq))

/-- Types that are not there are put in, each under its own id. -/
theorem foldl_createBuiltinType_new (ps : List (TypeID × Str)) (hnodup : (ps.map Prod.fst).Nodup)
    (h : ∀ p ∈ ps, p.1 ∉ s.simple) :
    (ps.foldl (fun s p => s.createBuiltinType p.1 p.2) s).simple.size = s.simple.size + ps.length := by
  induction ps generalizing s with
  | nil => rfl
  | cons p ps ih =>
    obtain ⟨hp,hrest⟩ := List.forall_mem_cons.mp h
    rw [List.map_cons, List.nodup_cons] at hnodup
    have hsize : (s.createBuiltinType p.1 p.2).simple.size = s.simple.size + 1 := by
      rw [TypeStatics.createBuiltinType, size_insert, if_neg hp]
    rw [List.foldl_cons, ih hnodup.2, hsize, List.length_cons]
    · omega
    · intro q hq hmem
      rcases Std.TreeMap.mem_insert.mp hmem with heq | hmem
      · exact hnodup.1 (List.mem_map.mpr ⟨q,hq,(Std.LawfulEqCmp.eq_of_compare heq).symm⟩)
      · exact hrest q hq hmem

theorem foldl_createBuiltinType_nextId (ps : List (TypeID × Str)) :
    (ps.foldl (fun s p => s.createBuiltinType p.1 p.2) s).nextId = s.nextId := by
  induction ps generalizing s with
  | nil => rfl
  | cons p ps ih => rw [List.foldl_cons, ih]; rfl

/-- A construction adds the lines, and the first one the special types. -/
theorem TypesBuilt.construct (hs : s.Ok) (h : TypesBuilt cfg n s) : TypesBuilt cfg (n + 1) (s.initBasicTypes cfg) := by
  obtain ⟨hlines,hid⟩ := foldl_addBasic_size hs.unused cfg.basicTypes
  have hold : ∀ p ∈ TypeStatics.specialTypes,
      (cfg.basicTypes.foldl TypeStatics.addBasic s).simple[p.1]? = s.simple[p.1]? := by
    intro p hp
    have hlt : ¬ s.nextId ≤ p.1 := not_le.mpr ((specialTypes_lt p hp).2.trans_le hs.reserved)
    rw [foldl_addBasic hs.unused, if_neg hlt]
  have heq : s.initBasicTypes cfg =
      TypeStatics.specialTypes.foldl (fun s p => s.createBuiltinType p.1 p.2) (cfg.basicTypes.foldl TypeStatics.addBasic s) := rfl
  refine ⟨fun hn => by omega,fun _ p hp => ?_,?_,?_⟩
  · rw [initBasicTypes_getElem? hs]
    have hfound : (specialType? p.1).isSome := by
      revert p
      decide
    cases hspecial : specialType? p.1 with
    | none => simp [hspecial] at hfound
    | some v => rfl
  · rw [heq]
    by_cases hn : n = 0
    · have hmiss : ∀ p ∈ TypeStatics.specialTypes, p.1 ∉ (cfg.basicTypes.foldl TypeStatics.addBasic s).simple := by
        intro p hp hmem
        rw [← Std.TreeMap.isSome_getElem?_iff_mem, hold p hp, h.none hn] at hmem
        cases hmem
      have hlength : TypeStatics.specialTypes.length = 4 := rfl
      rw [foldl_createBuiltinType_new _ (by decide) hmiss, hlines, h.size, if_pos hn, if_neg (Nat.succ_ne_zero n), hlength, hn]
      ring
    · have hthere : ∀ p ∈ TypeStatics.specialTypes, p.1 ∈ (cfg.basicTypes.foldl TypeStatics.addBasic s).simple := by
        intro p hp
        rw [← Std.TreeMap.isSome_getElem?_iff_mem, hold p hp]
        exact h.special hn p hp
      rw [foldl_createBuiltinType_there _ hthere, hlines, h.size, if_neg hn, if_neg (Nat.succ_ne_zero n)]
      ring
  · rw [heq, foldl_createBuiltinType_nextId, hid]
    have hbefore := h.nextId
    push_cast
    linarith

end

section
variable {cfg : Configuration} {parse : Str → Option ParseTree} {g : Garbage} {s s' : PolyGlotMutator} {n : ℕ}

/-- The collection leaves the basic types, and ids are only taken. -/
theorem basicTypes_keptByCollectors : KeptByCollectors fun s t =>
    t.types.statics.simple = s.types.statics.simple ∧ s.types.statics.nextId ≤ t.types.statics.nextId where
  refl := fun _ => ⟨rfl,le_rfl⟩
  trans := fun h h' => ⟨h'.1.trans h.1,h.2.trans h'.2⟩
  addDefinition := fun h => by
    obtain ⟨sc,-,htypes,-⟩ := addDefinition_run h
    rw [htypes]
    exact ⟨rfl,le_rfl⟩
  createFunctionType := fun s _ _ _ _ => ⟨rfl,(lt_add_one s.types.statics.nextId).le⟩
  createCompoundType := fun s _ _ => ⟨rfl,(lt_add_one s.types.statics.nextId).le⟩

theorem validate_typesBuilt {before : TypeSystem} {root : IR} {r r' : Rand} {v : Validated}
    (hrun : validate cfg before root r = .ok (v,r')) (h : TypesBuilt cfg n before.statics) :
    TypesBuilt cfg (n + 1) v.types.statics := by
  unfold validate at hrun
  obtain ⟨_,_,_,hrun⟩ := of_bind hrun
  obtain ⟨built,_,hbuild,hrun⟩ := of_bind hrun
  obtain ⟨⟨e,t⟩,_,_,hrun⟩ := of_bind hrun
  cases hrun
  obtain ⟨hbuild,-⟩ := of_lift hbuild
  unfold buildScopeTreeWithSymbolTable at hbuild
  obtain ⟨⟨root',scopes⟩,_,hbuild⟩ := bind_ok hbuild
  obtain ⟨⟨⟨⟩,st⟩,hsymbols,hbuild⟩ := bind_ok hbuild
  cases hbuild
  obtain ⟨hsimple,hnext⟩ := (basicTypes_keptByCollectors.buildSymbolTables root').of_run _ _ hsymbols
  exact (h.construct before.statics_ok).congr hsimple hnext

/-- The type systems of `k` validations in a row, each of which sees the static
members that the one before it left. -/
inductive Validations (cfg : Configuration) : ℕ → TypeSystem → TypeSystem → Prop
  | start (types : TypeSystem) : Validations cfg 0 types types
  | validate {k : ℕ} {before after : TypeSystem} {root : IR} {r r' : Rand} {v : Validated}
      (h : Validations cfg k before after) (hrun : PolyGlot.validate cfg after root r = .ok (v,r')) :
      Validations cfg (k + 1) before v.types

theorem Validations.trans {k k' : ℕ} {ts ts' ts'' : TypeSystem} (h : Validations cfg k ts ts')
    (h' : Validations cfg k' ts' ts'') : Validations cfg (k + k') ts ts'' := by
  induction h' with
  | start => exact h
  | validate _ hrun ih => exact (ih h).validate hrun

theorem Validations.typesBuilt {k : ℕ} {ts ts' : TypeSystem} (h : Validations cfg k ts ts')
    (hbuilt : TypesBuilt cfg n ts.statics) : TypesBuilt cfg (n + k) ts'.statics := by
  induction h with
  | start => exact hbuilt
  | validate _ hrun ih => exact validate_typesBuilt hrun (ih hbuilt)

structure TypesAfter (cfg : Configuration) (s s' : PolyGlotMutator) (k : ℕ) : Prop where
  validations : Validations cfg k s.types s'.types
  saved : s'.saveTestCases.length = s.saveTestCases.length + k

theorem onMutator_types {α : Type} (m : Run α) : Attains (onMutator m) s fun _ s' => TypesAfter cfg s s' 0 := by
  constructor
  intro a s' hrun
  obtain ⟨t,-,rfl⟩ := of_onMutator hrun
  exact ⟨.start _,rfl⟩

theorem TypesAfter.trans {s₁ : PolyGlotMutator} {k k' : ℕ} (h : TypesAfter cfg s s₁ k) (h' : TypesAfter cfg s₁ s' k') :
    TypesAfter cfg s s' (k + k') := ⟨h.validations.trans h'.validations,by rw [h'.saved, h.saved, Nat.add_assoc]⟩

/-- A mutant is validated once and gives one test case. -/
theorem Saves.types {t : IR} (h : Saves cfg parse g s t false s') : TypesAfter cfg s s' 1 := by
  cases h with
  | validated hvalidate =>
    refine ⟨(Validations.start s.types).validate hvalidate,?_⟩
    rw [if_pos (validate_success hvalidate), List.length_append, List.length_singleton]

theorem SavesAll.types {ps : List Ptr} {ts : List IR} (h : SavesAll cfg parse g false s ps ts s') :
    TypesAfter cfg s s' ts.length := by
  induction h with
  | nil => exact ⟨.start _,rfl⟩
  | cons _ h _ ih =>
    rw [List.length_cons, Nat.add_comm]
    exact h.types.trans ih

theorem mutate_types {text : Str} {count : ℕ} (hrun : mutate cfg false parse g text s = .ok (count,s')) :
    ∃ k, TypesAfter cfg s s' k := by
  obtain ⟨root,m,-,hrest⟩ := of_mutate hrun
  rcases hrest with ⟨-,-,rfl⟩ | ⟨-,irs,m₁,-,⟨-,-,rfl⟩ | ⟨-,ps,m₂,ts,-,hsaves,-⟩⟩
  · exact ⟨0,.start _,rfl⟩
  · exact ⟨0,.start _,rfl⟩
  · exact ⟨ts.length,hsaves.types.validations,hsaves.types.saved⟩

def announcedTotal : List (Handout.Event Str) → ℕ
  | [] => 0
  | .refill texts :: es => texts.length + announcedTotal es
  | _ :: es => announcedTotal es

/-- A campaign of the semantic mode makes one validation for each test case that
was announced. -/
theorem Campaign.validations {calls : List Callback} {es : List (Handout.Event Str)} {left : ℕ}
    (hc : Campaign cfg false parse g s calls es left s') : Validations cfg (announcedTotal es) s.types s'.types := by
  induction hc with
  | start => exact .start _
  | callback hc hlast ih =>
    cases hlast with
    | queueNewEntry hrun =>
      have hnext : TypesAfter cfg _ _ 0 := (onMutator_types _).of_run _ _ hrun
      exact ih.trans hnext.validations
    | fuzzCount hrun =>
      obtain ⟨hnil,hmutate⟩ := of_fuzzCount hrun
      obtain ⟨k,hk⟩ := mutate_types hmutate
      have hsaved := hk.saved
      rw [hnil, List.length_nil, Nat.zero_add] at hsaved
      rw [announcedTotal, hsaved, Nat.add_comm]
      exact ih.trans hk.validations
    | fuzz hrun =>
      rw [aflCustomFuzz, getNextMutatedTestCase, run_get_bind] at hrun
      obtain ⟨_,_,hassert,hrun⟩ := of_bind hrun
      obtain ⟨-,rfl⟩ := Attains.assertThat.of_run _ _ hassert
      cases hrun
      exact ih

/-- With every test case that a count of the semantic mode announces the process
keeps one more entry for each basic type of the configuration. -/
theorem campaign_typeTable_size {calls : List Callback} {es : List (Handout.Event Str)} {left : ℕ}
    (hstart : s.types.statics = .initial) (hc : Campaign cfg false parse g s calls es left s') :
    s'.types.statics.simple.size =
        (if announcedTotal es = 0 then 0 else 4) + announcedTotal es * cfg.basicTypes.length ∧
      10 + announcedTotal es * cfg.basicTypes.length ≤ s'.types.statics.nextId := by
  have hinitial : TypesBuilt cfg 0 s.types.statics := hstart ▸ TypesBuilt.initial cfg
  have hbuilt := hc.validations.typesBuilt hinitial
  rw [Nat.zero_add] at hbuilt
  exact ⟨hbuilt.size,hbuilt.nextId⟩

theorem parens_typeTable_size : ∃ es s', Campaign (intConfig true) false parseParens zeroed fresh
    [.fuzzCount "(x)".toList] es 1 s' ∧ s'.types.statics.simple.size =
      (if announcedTotal es = 0 then 0 else 4) + announcedTotal es * (intConfig true).basicTypes.length := by
  obtain ⟨s',hcount⟩ := parens_counted
  have hc : Campaign (intConfig true) false parseParens zeroed fresh [.fuzzCount "(x)".toList] _ 1 s' :=
    .callback .start (.fuzzCount hcount)
  exact ⟨_,s',hc,(campaign_typeTable_size rfl hc).1⟩

end

end PolyGlot
