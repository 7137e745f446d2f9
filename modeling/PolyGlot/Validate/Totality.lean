import PolyGlot.Generator.Choices
import PolyGlot.Generator.Progress
import PolyGlot.Scope.Kept
import PolyGlot.Validate.Validation

set_option autoImplicit false

/-! # When the validation cannot fail

`Validate` draws its random values one after the other from one sequence. Over all
sequences it returns exactly when the symbols can be collected and the generator
cannot fail at any placeholder: no text at an earlier one makes a later one safe.
-/
namespace PolyGlot

open BinaryTree Prog

structure TypeSystem.Plain (ts : TypeSystem) : Prop where
  statics : ∀ (id : TypeID) (v : VarType), ts.statics.simple[id]? = some v → v.kind = .simple
  own : ∀ id : TypeID, ts.own.simpleVar[id]? = none
  members : ∀ (id : TypeID) (c : CompoundType), ts.own.compound[id]? = some c → c.members.Filled

section
variable {cfg : Configuration} {ts before : TypeSystem}

theorem TypeSystem.Plain.noPointers (h : ts.Plain) : ts.NoPointers := by
  intro id v hv
  rw [TypeTables.getTypePtrByID, ts.statics_ok.compound, ts.statics_ok.function, h.own] at hv
  cases hsimple : ts.statics.simple[id]? with
  | some w =>
    rw [hsimple] at hv
    cases hv
    rw [h.statics id v hsimple]
    decide
  | none =>
    rw [hsimple] at hv
    cases hcompound : ts.own.compound[id]? with
    | some c =>
      rw [hcompound] at hv
      cases hv
      exact nofun
    | none =>
      rw [hcompound] at hv
      obtain ⟨f,-,rfl⟩ := Option.map_eq_some_iff.mp hv
      exact nofun

theorem TypeSystem.Plain.membersNamed (h : ts.Plain) : ts.MembersNamed := by
  intro id c hc
  apply h.members id c
  simpa [TypeTables.getCompoundType, ts.statics_ok.compound] using hc

theorem initBasicTypes_simple {s : TypeStatics} (h : ∀ (id : TypeID) (v : VarType), s.simple[id]? = some v → v.kind = .simple)
    (id : TypeID) (v : VarType) (hv : (s.initBasicTypes cfg).simple[id]? = some v) : v.kind = .simple := by
  have hinsert : ∀ (m : Std.TreeMap TypeID VarType) (i : TypeID) (name : Str),
      (∀ (id : TypeID) (v : VarType), m[id]? = some v → v.kind = .simple) →
      ∀ (id : TypeID) (v : VarType), (m.insert i (.simple i name))[id]? = some v → v.kind = .simple := by
    intro m i name hm id v hv
    rw [VectorMap.getElem?_insert_ite] at hv
    split at hv
    · cases hv
      rfl
    · exact hm id v hv
  have hlines := List.foldlRecOn (motive := fun s : TypeStatics => ∀ (id : TypeID) (v : VarType),
    s.simple[id]? = some v → v.kind = .simple) (cfg.basicTypeStr.filter (· ≠ [])) TypeStatics.addBasic h
    fun s hs line _ => hinsert _ _ _ hs
  exact List.foldlRecOn (motive := fun s : TypeStatics => ∀ (id : TypeID) (v : VarType),
    s.simple[id]? = some v → v.kind = .simple) TypeStatics.specialTypes (fun s p => s.createBuiltinType p.1 p.2) hlines
    (fun s hs p _ => hinsert _ _ _ hs) id v hv

theorem TypeSystem.Plain.construct (h : before.Plain) : (TypeSystem.construct cfg before).Plain where
  statics := initBasicTypes_simple h.statics
  own := fun id => by simp [TypeSystem.construct, TypeTables.construct]
  members := fun id c hc => by simp [TypeSystem.construct, TypeTables.construct] at hc

theorem plain_keptByCollectors : KeptByCollectors fun s t => s.types.Plain → t.types.Plain where
  refl := fun _ h => h
  trans := fun h h' hs => h' (h hs)
  addDefinition := fun h hs => by
    obtain ⟨sc,-,htypes,-⟩ := addDefinition_run h
    rwa [htypes]
  createFunctionType := fun s _ _ _ _ hs => ⟨hs.statics,hs.own,hs.members⟩
  createCompoundType := fun s name members hs => by
    refine ⟨hs.statics,hs.own,fun id c hc => ?_⟩
    have hpushed : (members.foldl (fun m p => VectorMap.push m p.1 p.2) ∅ : VectorMap TypeID Str).Filled :=
      List.foldlRecOn (motive := VectorMap.Filled) members _ VectorMap.filled_empty fun _ hm _ _ => hm.push
    have hget : (s.types.own.compound.insert s.types.statics.nextId ⟨s.types.statics.nextId,name,
        members.foldl (fun m p => m.push p.1 p.2) ∅⟩)[id]? = some c := hc
    rw [VectorMap.getElem?_insert_ite] at hget
    split at hget
    · cases hget
      exact hpushed
    · exact hs.members id c hget

/-- The collection makes no pointer types. -/
theorem TypeSystem.Plain.collected {root : IR} {built : IR × CollectState} (h : before.Plain)
    (hbuild : buildScopeTreeWithSymbolTable cfg before root = .ok built) : built.2.types.Plain := by
  unfold buildScopeTreeWithSymbolTable at hbuild
  obtain ⟨⟨root',scopes⟩,_,hbuild⟩ := bind_ok hbuild
  obtain ⟨⟨⟨⟩,st⟩,hsymbols,hbuild⟩ := bind_ok hbuild
  cases hbuild
  exact (plain_keptByCollectors.buildSymbolTables root').of_run _ _ hsymbols h.construct

theorem Generator.always_generateExpression_iff {weak : Bool} {st : ScopeTree} {ir : IRNode} (h : ts.Plain) :
    Always (generateExpression weak st ts ir SpecialType.kAllTypes) ↔ CannotFail weak st ts ir := by
  constructor
  · intro hall
    have honly := onlyComposed_of_total h.noPointers hall
    exact cannotFail_of honly (namedOrCyclic_of_total h.noPointers h.membersNamed hall honly)
  · intro hcannot rand
    obtain ⟨sat,hcollect,hsourced,hsat⟩ := collected_satisfiable weak st ts ir
    have hcore : Ensures (AtLeast 0) (generateExpressionByTypeCore weak ts (collectAllVarDefinitionByType st ts ir) sat 52
        SpecialType.kAllTypes) fun res => NamedOrCyclic ts (collectAllVarDefinitionByType st ts ir) → res ≠ [] :=
      generateExpressionByTypeCore_ensures h.noPointers h.membersNamed collect_sorted hsat hsourced
        (onlyComposed_of hcannot) rfl (by decide) _
    obtain ⟨res,t,hrun,hne,_⟩ := hcore.meets ⟨rand,0,0⟩ (Nat.zero_le _)
    have hres := hne (namedOrCyclic_of hcannot)
    refine ⟨(res,t.rand),?_⟩
    unfold generateExpression
    simp only [hcollect, hrun, if_neg hres]

/-- A placeholder takes what the generator gives. -/
theorem applyFix_eq_bind {weak : Bool} {s : CollectState} {p : Path} {t : IR} {n : IRNode} {l r : IR}
    (hnode : t.subtreeAt p = .node n l r) (hn : isFixme n = true) : applyFix weak s ⟨p,SpecialType.kAllTypes⟩ t = do
      let text ← Generator.generateExpression weak s.scopes s.types n SpecialType.kAllTypes
      return (true,t.replaceAt p (.node { n with data := .string text } l r)) := by
  unfold applyFix
  simp only [hnode, assertThat, if_pos hn]
  rfl

/-- Each placeholder is asked about alone. -/
theorem always_applyFixes_iff {weak : Bool} {s : CollectState} {ps : List Path} (hnodup : ps.Nodup) {t : IR}
    (hfix : ∀ p ∈ ps, IsAt isFixme t p) :
    Always (applyFixes weak s (ps.map fun p => ⟨p,SpecialType.kAllTypes⟩) t) ↔ ∀ p ∈ ps, ∀ n,
      (t.subtreeAt p).root? = some n → Always (Generator.generateExpression weak s.scopes s.types n SpecialType.kAllTypes) := by
  induction ps generalizing t with
  | nil =>
    simp [applyFixes, Always.pure]
  | cons p ps ih =>
    obtain ⟨hp,hnodup⟩ := List.nodup_cons.mp hnodup
    obtain ⟨⟨n,hn,hfixme⟩,hrest⟩ := List.forall_mem_cons.mp hfix
    obtain ⟨l,r,hnode⟩ : ∃ l r, t.subtreeAt p = .node n l r := by
      cases hsub : t.subtreeAt p with
      | nil => simp [hsub, root?] at hn
      | node m l r =>
        rw [hsub] at hn
        cases hn
        exact ⟨l,r,rfl⟩
    have hroot : ∀ text q, ((t.replaceAt p (.node { n with data := .string text } l r)).subtreeAt q).root? =
        if q = p then some { n with data := .string text } else (t.subtreeAt q).root? :=
      fun text q => root?_replaceAt_node hnode
    have hother : ∀ text, ∀ q ∈ ps, ((t.replaceAt p (.node { n with data := .string text } l r)).subtreeAt q).root? =
        (t.subtreeAt q).root? := by
      intro text q hq
      rw [hroot, if_neg (ne_of_mem_of_not_mem hq hp)]
    have hlater : ∀ text, Always (applyFixes weak s (ps.map fun p => ⟨p,SpecialType.kAllTypes⟩)
        (t.replaceAt p (.node { n with data := .string text } l r))) ↔ ∀ q ∈ ps, ∀ n, (t.subtreeAt q).root? = some n →
          Always (Generator.generateExpression weak s.scopes s.types n SpecialType.kAllTypes) := by
      intro text
      rw [ih hnodup]
      · apply forall₂_congr
        intro q hq
        rw [hother text q hq]
      · intro q hq
        obtain ⟨m,hm,hmfix⟩ := hrest q hq
        exact ⟨m,by rw [hother text q hq, hm],hmfix⟩
    have hfirst : applyFixes weak s ((p :: ps).map fun p => ⟨p,SpecialType.kAllTypes⟩) t =
        Generator.generateExpression weak s.scopes s.types n SpecialType.kAllTypes >>= fun text =>
          applyFixes weak s (ps.map fun p => ⟨p,SpecialType.kAllTypes⟩)
            (t.replaceAt p (.node { n with data := .string text } l r)) := by
      rw [List.map_cons, applyFixes, applyFix_eq_bind hnode hfixme, bind_assoc]
      simp only [pure_bind, if_true]
    rw [hfirst, always_bind_iff (Generator.generateExpression_reads s.scopes n SpecialType.kAllTypes), List.forall_mem_cons]
    have hhere : (∀ m, (t.subtreeAt p).root? = some m →
        Always (Generator.generateExpression weak s.scopes s.types m SpecialType.kAllTypes)) ↔
        Always (Generator.generateExpression weak s.scopes s.types n SpecialType.kAllTypes) := by
      simp [hn]
    rw [hhere]
    constructor
    · rintro ⟨hnow,hthen⟩
      obtain ⟨⟨text,rest⟩,hrun⟩ := hnow (Stream'.const 0)
      exact ⟨hnow,(hlater text).mp (hthen text ⟨_,rest,hrun⟩)⟩
    · rintro ⟨hnow,hthen⟩
      exact ⟨hnow,fun text _ => (hlater text).mpr hthen⟩

/-- The validation returns on every sequence of random values exactly when the
symbols can be collected and the generator cannot fail at any placeholder. -/
theorem always_validate_iff (h : before.Plain) (root : IR) : Always (validate cfg before root) ↔
    root ≠ .nil ∧ ∃ built, buildScopeTreeWithSymbolTable cfg before (markFixMe root) = .ok built ∧
      ∀ p ∈ outermostPaths isFixme built.1, ∀ n, (built.1.subtreeAt p).root? = some n →
        Generator.CannotFail cfg.isWeakType built.2.scopes built.2.types n := by
  unfold validate
  rw [always_assertThat_bind_iff, always_lift_bind_iff]
  apply and_congr_right
  intro _
  apply exists_congr
  intro built
  apply and_congr_right
  intro hbuild
  have hplain := h.collected hbuild
  rw [always_map_iff, selectFixStrategy_eq, always_applyFixes_iff (outermostPaths_nodup ..) fun p hp => (mem_outermostPaths.mp hp).1]
  simp only [Generator.always_generateExpression_iff hplain]

end

end PolyGlot
