import PolyGlot.Generator.Typing

set_option autoImplicit false

/-! # The search of the members

The search for a way from a compound type to a type finds one exactly when the
type is among those that `get_all_types_from_compound_type` finds, and it fails
only where a call for an argument does.
-/
namespace PolyGlot

namespace Generator

open Prog TypeSystem

def AtLeast (n : ℕ) (s : GenState) : Prop := n ≤ s.genCounter

section Steps
variable {n : ℕ}

theorem randomPick_ensures {α : Type} {l : List α} (hl : l ≠ []) : Ensures (AtLeast n) (randomPick l) (· ∈ l) := by
  constructor
  intro s hs
  have hless : s.rand.head % l.length < l.length := Nat.mod_lt _ (List.length_pos_iff.mpr hl)
  refine ⟨l[s.rand.head % l.length],{ s with rand := s.rand.tail },?_,List.getElem_mem hless,hs⟩
  rw [randomPick, List.getElem?_eq_getElem hless]

theorem getRandInt_ensures {range : ℕ} (h : range ≠ 0) : Ensures (AtLeast n) (getRandInt range) (· < range) := by
  constructor
  intro s hs
  exact ⟨s.rand.head % range,{ s with rand := s.rand.tail },if_neg h,Nat.mod_lt _ (Nat.pos_of_ne_zero h),hs⟩

theorem intText_ne_nil (i : ℤ) : intText i ≠ [] := by
  unfold intText
  split
  · simp
  · exact Nat.toDigits_ne_nil

theorem genRandomNumString_ensures : Ensures (AtLeast n) genRandomNumString (· ≠ []) :=
  (getRandInt_ensures (by decide)).bind fun k _ => Ensures.pure (intText_ne_nil k)

theorem closeArguments_ne_nil (res : Str) : closeArguments res ≠ [] := by
  unfold closeArguments
  split <;> simp

end Steps

section Handlers
variable {E : Fault → Prop} {n : ℕ} {ts : TypeSystem} {core : TypeID → Gen Str}
  (hcore : ∀ k, EnsuresOr E (AtLeast n) (core k) fun _ => True)
include hcore

theorem appendArguments_ensuresOr (ks : List TypeID) (res : Str) :
    EnsuresOr E (AtLeast n) (appendArguments core ks res) fun _ => True := by
  induction ks generalizing res with
  | nil => exact EnsuresOr.pure True.intro
  | cons k ks ih =>
    unfold appendArguments
    exact (hcore k).bind fun arg _ => ih _

theorem functionCallGenHandler_ensuresOr {functionMap : VectorMap TypeID Str} (hne : functionMap.size ≠ 0)
    (hfunctions : ∀ s ∈ functionMap, ∃ f, ts.getFunctionType s = some f) :
    EnsuresOr E (AtLeast n) (functionCallGenHandler ts core functionMap) (· ≠ []) := by
  unfold functionCallGenHandler
  apply (EnsuresOr.assertThat hne).bind
  intro _ _
  apply (randomPick_ensures (VectorMap.toList_ne_nil hne)).orFails.bind
  intro e he
  obtain ⟨f,hf⟩ := hfunctions e.1 (VectorMap.mem_of_entry he)
  rw [hf]
  apply EnsuresOr.modify_bind
  · exact fun _ hs => hs
  · exact (appendArguments_ensuresOr hcore _ _).bind fun res _ => EnsuresOr.pure (closeArguments_ne_nil res)

theorem callMember_ensuresOr {funcSol : List FunctionType} (hne : funcSol ≠ [])
    (hfuncs : ∀ f ∈ funcSol, ts.getFunctionType f.typeId = some f) :
    EnsuresOr E (AtLeast n) (callMember ts core funcSol) (· ≠ []) := by
  unfold callMember
  apply (randomPick_ensures hne).orFails.bind
  intro f hf
  have hcall : EnsuresOr E (AtLeast n) (functionCallGenHandler ts core ((∅ : VectorMap TypeID Str).push f.typeId f.name))
      (· ≠ []) := by
    apply functionCallGenHandler_ensuresOr hcore
    · exact VectorMap.size_ne_zero_iff.mpr ⟨f.typeId,VectorMap.mem_push.mpr (.inl rfl)⟩
    · intro s hs
      rcases VectorMap.mem_push.mp hs with h | h
      · exact ⟨f,h ▸ hfuncs f hf⟩
      · simp at h
  exact hcall.bind fun res _ => EnsuresOr.pure (by simp [memberStr])

/-- A picked solution is there unless nothing was found. -/
theorem pickSolution_ensuresOr {allSol : List Str} {funcSol : List FunctionType} (hsols : ∀ sol ∈ allSol, sol ≠ [])
    (hfuncs : ∀ f ∈ funcSol, ts.getFunctionType f.typeId = some f) :
    EnsuresOr E (AtLeast n) (pickSolution ts core allSol funcSol) fun res => res ≠ [] ↔ allSol ≠ [] ∨ funcSol ≠ [] := by
  have hpick : allSol ≠ [] →
      EnsuresOr E (AtLeast n) (randomPick allSol) fun res => res ≠ [] ↔ allSol ≠ [] ∨ funcSol ≠ [] := fun hne =>
    (randomPick_ensures hne).orFails.mono fun sol hsol => iff_of_true (hsols sol hsol) (.inl hne)
  have hcall : funcSol ≠ [] →
      EnsuresOr E (AtLeast n) (callMember ts core funcSol) fun res => res ≠ [] ↔ allSol ≠ [] ∨ funcSol ≠ [] := fun hne =>
    (callMember_ensuresOr hcore hne hfuncs).mono fun sol hsol => iff_of_true hsol (.inr hne)
  unfold pickSolution
  apply EnsuresOr.ite
  · intro h
    exact hpick h.1
  · intro h₁
    apply EnsuresOr.ite
    · intro h
      exact hcall h.2
    · intro h₂
      apply EnsuresOr.ite
      · intro h
        apply (getRandInt_ensures (by decide)).orFails.bind
        intro coin _
        exact EnsuresOr.ite (fun _ => hcall h.2) fun _ => hpick h.1
      · intro h₃
        exact EnsuresOr.pure (by tauto)

end Handlers

section Search
variable {E : Fault → Prop} {n : ℕ} {ts : TypeSystem} {targetType : TypeID}

def CallsTo (ts : TypeSystem) (targetType m : TypeID) : Prop :=
  ∃ f, ts.getFunctionType m = some f ∧ (m = targetType ∨ f.returnType = targetType)

theorem mem_ownTypes_iff {m : TypeID} : targetType ∈ ts.ownTypes true m ↔ m = targetType ∨ CallsTo ts targetType m := by
  unfold ownTypes CallsTo
  by_cases hc : ts.isCompoundType m = true
  · simp [hc, getFunctionType_of_compound hc, eq_comm]
  · cases hf : ts.getFunctionType m with
    | none => simp [hc, eq_comm]
    | some f =>
      simp only [hc, if_true, Bool.false_eq_true, if_false, List.mem_cons, List.not_mem_nil, or_false, Option.some.injEq,
        exists_eq_left', eq_comm (a := targetType)]
      tauto

theorem offers_iff {c : TypeID} {ct : CompoundType} (hct : ts.getCompoundType c = some ct) : Offers true ts c targetType ↔
    (∃ e ∈ ct.members.toList, e.1 = targetType) ∨ ∃ e ∈ ct.members.toList, CallsTo ts targetType e.1 := by
  have hkeys : ∀ p : TypeID → Prop, (∃ m ∈ ct.memberTypes, p m) ↔ ∃ e ∈ ct.members.toList, p e.1 := by
    intro p
    rw [CompoundType.memberTypes, ← Std.TreeMap.map_fst_toList_eq_keys]
    simp only [List.mem_map, exists_exists_and_eq_and]
  have hoffers : Offers true ts c targetType ↔ ∃ m ∈ ct.memberTypes, targetType ∈ ts.ownTypes true m := by
    simp [Offers, hct]
  rw [hoffers, hkeys, ← exists_or]
  simp only [mem_ownTypes_iff, and_or_left]

theorem directMembers_ensures {members : List (TypeID × List Str)} (hnames : ∀ e ∈ members, e.2 ≠ []) :
    Ensures (AtLeast n) (directMembers targetType members) fun sols =>
      (∀ sol ∈ sols, sol ≠ []) ∧ (sols ≠ [] ↔ ∃ e ∈ members, e.1 = targetType) := by
  induction members with
  | nil => exact Ensures.pure (by simp)
  | cons member rest ih =>
    obtain ⟨hmember,hrest⟩ := List.forall_mem_cons.mp hnames
    unfold directMembers
    apply Ensures.ite
    · intro htarget
      apply (randomPick_ensures hmember).bind
      intro name _
      apply (ih hrest).bind
      intro others hothers
      exact Ensures.pure ⟨by simpa [memberStr] using hothers.1,by simp [htarget]⟩
    · intro htarget
      apply (ih hrest).mono
      intro sols hsols
      exact ⟨hsols.1,by simp [htarget, hsols.2]⟩

namespace Found

def Holds (found : Found) : Prop := found.allSol ≠ [] ∨ found.funcSol ≠ []

structure Usable (ts : TypeSystem) (found : Found) : Prop where
  allSol : ∀ sol ∈ found.allSol, sol ≠ []
  funcSol : ∀ f ∈ found.funcSol, ts.getFunctionType f.typeId = some f

variable {found : Found} {sol : Str} {visit : Finset TypeID}

theorem Usable.push (h : found.Usable ts) (hsol : sol ≠ []) :
    Usable ts ⟨found.allSol ++ [sol],found.funcSol,visit⟩ := by
  refine ⟨fun s hs => ?_,h.funcSol⟩
  rcases List.mem_append.mp hs with hs | hs
  · exact h.allSol s hs
  · rwa [List.mem_singleton.mp hs]

theorem Usable.pushFunction (h : found.Usable ts) {f : FunctionType} (hf : ts.getFunctionType f.typeId = some f) :
    Usable ts ⟨found.allSol,found.funcSol ++ [f],visit⟩ := by
  refine ⟨h.allSol,fun g hg => ?_⟩
  rcases List.mem_append.mp hg with hg | hg
  · exact h.funcSol g hg
  · rwa [List.mem_singleton.mp hg]

end Found

structure Searched (ts : TypeSystem) (targetType : TypeID) (todo : List TypeID) (own : Prop) (visit visit' : Finset TypeID)
    (holds : Prop) : Prop where
  visits : Search.Visits ts.compoundMembers todo visit visit'
  holds_iff : holds ↔ own ∨ ∃ d ∈ visit', d ∉ visit ∧ Offers true ts d targetType

/-- One search after the other: the second one starts with what the first found. -/
theorem Searched.append {as bs : List TypeID} {own own' rest holds holds' : Prop} {visit v₁ v₂ : Finset TypeID}
    (h : Searched ts targetType as own visit v₁ holds) (h' : Searched ts targetType bs own' v₁ v₂ holds')
    (hown : own' ↔ holds ∨ rest) : Searched ts targetType (as ++ bs) (own ∨ rest) visit v₂ holds' := by
  refine ⟨h.visits.append h'.visits,?_⟩
  have h₁ := h.visits.subset
  have h₂ := h'.visits.subset
  rw [h'.holds_iff, hown, h.holds_iff]
  constructor
  · rintro (((hown | ⟨d,hd,hnot,ho⟩) | hrest) | ⟨d,hd,hnot,ho⟩)
    · exact .inl (.inl hown)
    · exact .inr ⟨d,h₂ hd,hnot,ho⟩
    · exact .inl (.inr hrest)
    · exact .inr ⟨d,hd,fun hv => hnot (h₁ hv),ho⟩
  · rintro ((hown | hrest) | ⟨d,hd,hnot,ho⟩)
    · exact .inl (.inl (.inl hown))
    · exact .inl (.inr hrest)
    · by_cases hd₁ : d ∈ v₁
      · exact .inl (.inl (.inr ⟨d,hd₁,hnot,ho⟩))
      · exact .inr ⟨d,hd,hd₁,ho⟩

theorem memberLoop_ensuresOr {fuel : ℕ} {search : TypeID → Finset TypeID → Gen (Str × Finset TypeID)}
    (hsearch : ∀ d visit, ts.isCompoundType d = true → d ∉ visit → (ts.ids \ visit).card < fuel →
      EnsuresOr E (AtLeast n) (search d visit) fun r => Searched ts targetType [d] False visit r.2 (r.1 ≠ []))
    {members : List (TypeID × List Str)} (hnames : ∀ e ∈ members, e.2 ≠ []) {found : Found} (hfound : found.Usable ts)
    (hfuel : (ts.ids \ found.visit).card < fuel) :
    EnsuresOr E (AtLeast n) (memberLoop ts search targetType members found) fun found' => found'.Usable ts ∧
      Searched ts targetType ((members.map Prod.fst).filter ts.isCompoundType)
        (found.Holds ∨ ∃ e ∈ members, CallsTo ts targetType e.1) found.visit found'.visit found'.Holds := by
  induction members generalizing found with
  | nil =>
    refine EnsuresOr.pure ⟨hfound,.nil,?_⟩
    simp only [List.not_mem_nil, false_and, exists_false, or_false, iff_self_or]
    rintro ⟨d,hd,hnot,_⟩
    exact absurd hd hnot
  | cons member rest ih =>
    obtain ⟨hmember,hrest⟩ := List.forall_mem_cons.mp hnames
    simp only [List.map_cons, List.exists_mem_cons_iff]
    unfold memberLoop
    apply EnsuresOr.ite
    · intro hc
      have hcalls : ¬ CallsTo ts targetType member.1 := by
        simp [CallsTo, getFunctionType_of_compound hc]
      rw [List.filter_cons_of_pos hc]
      simp only [hcalls, false_or]
      apply EnsuresOr.ite
      · intro hseen
        apply (ih hrest hfound hfuel).mono
        intro found' h
        exact ⟨h.1,.seen hseen h.2.visits,h.2.holds_iff⟩
      · intro hnew
        apply (hsearch member.1 found.visit hc hnew hfuel).bind
        intro r hr
        have hnext : ∀ found₁ : Found, found₁.Usable ts → found₁.visit = r.2 → (found₁.Holds ↔ found.Holds ∨ r.1 ≠ []) →
            EnsuresOr E (AtLeast n) (memberLoop ts search targetType rest found₁) fun found' => found'.Usable ts ∧
              Searched ts targetType (member.1 :: (rest.map Prod.fst).filter ts.isCompoundType)
                (found.Holds ∨ ∃ e ∈ rest, CallsTo ts targetType e.1) found.visit found'.visit found'.Holds := by
          intro found₁ husable hvisit hholds
          have hless : (ts.ids \ found₁.visit).card < fuel :=
            hvisit ▸ lt_of_le_of_lt (Search.card_unvisited_le hr.visits.subset) hfuel
          apply (ih hrest husable hless).mono
          intro found' h
          refine ⟨h.1,?_⟩
          simpa using hr.append (hvisit ▸ h.2) (by rw [hholds]; tauto)
        apply EnsuresOr.ite
        · intro hnone
          exact hnext ⟨found.allSol,found.funcSol,r.2⟩ ⟨hfound.allSol,hfound.funcSol⟩ rfl (by simp [hnone, Found.Holds])
        · intro hsome
          apply (randomPick_ensures hmember).orFails.bind
          intro name _
          exact hnext _ (hfound.push (by simp [memberStr])) rfl (by simp [hsome, Found.Holds])
    · intro hc
      rw [List.filter_cons_of_neg hc]
      have hnext : ∀ found₁ : Found, found₁.Usable ts → found₁.visit = found.visit →
          (found₁.Holds ↔ found.Holds ∨ CallsTo ts targetType member.1) →
          EnsuresOr E (AtLeast n) (memberLoop ts search targetType rest found₁) fun found' => found'.Usable ts ∧
            Searched ts targetType ((rest.map Prod.fst).filter ts.isCompoundType)
              (found.Holds ∨ CallsTo ts targetType member.1 ∨ ∃ e ∈ rest, CallsTo ts targetType e.1)
              found.visit found'.visit found'.Holds := by
        intro found₁ husable hvisit hholds
        apply (ih hrest husable (hvisit ▸ hfuel)).mono
        intro found' h
        rw [hvisit, hholds, or_assoc] at h
        exact h
      apply EnsuresOr.ite
      · intro hfunction
        obtain ⟨f,hf⟩ := isFunctionType_iff.mp hfunction
        have hcalls : CallsTo ts targetType member.1 ↔ member.1 = targetType ∨ f.returnType = targetType := by
          simp [CallsTo, hf]
        apply EnsuresOr.ite
        · intro htarget
          apply (randomPick_ensures hmember).orFails.bind
          intro name _
          have hholds : CallsTo ts targetType member.1 := hcalls.mpr (.inl htarget)
          exact hnext _ (hfound.push (by simp [memberStr])) rfl (by simp [hholds, Found.Holds])
        · intro htarget
          rw [hf]
          apply EnsuresOr.ite
          · intro hret
            exact hnext _ hfound rfl (by simp [hcalls, htarget, hret])
          · intro hret
            have hself : ts.getFunctionType f.typeId = some f := by
              rw [getFunctionType_typeId hf]
              exact hf
            exact hnext _ (hfound.pushFunction hself) rfl (by simp [hcalls, not_not.mp hret, Found.Holds])
      · intro hfunction
        have hnone : ¬ CallsTo ts targetType member.1 := by
          rintro ⟨f,hf,_⟩
          exact hfunction (isFunctionType_iff.mpr ⟨f,hf⟩)
        exact hnext _ hfound rfl (by simp [hnone])

theorem getClassMemberByTypeNoDuplicate_ensuresOr {core : TypeID → Gen Str}
    (hcore : ∀ k, EnsuresOr E (AtLeast n) (core k) fun _ => True) (hnames : ts.MembersNamed) {fuel : ℕ} (c : TypeID)
    (visit : Finset TypeID) (hc : ts.isCompoundType c = true) (hnew : c ∉ visit) (hfuel : (ts.ids \ visit).card < fuel) :
    EnsuresOr E (AtLeast n) (getClassMemberByTypeNoDuplicate ts core targetType fuel c visit) fun r =>
      Searched ts targetType [c] False visit r.2 (r.1 ≠ []) := by
  induction fuel generalizing c visit with
  | zero => omega
  | succ fuel ih =>
    obtain ⟨ct,hct⟩ := isCompoundType_iff.mp hc
    have hmembers : ∀ e ∈ ct.members.toList, e.2 ≠ [] := by
      intro e he hempty
      exact hnames c ct hct e.1 (hempty ▸ VectorMap.mem_entries_iff.mp he)
    have hless := Search.card_unvisited_insert (mem_ids hc) hnew
    unfold getClassMemberByTypeNoDuplicate
    rw [hct]
    apply (directMembers_ensures hmembers).orFails.bind
    intro direct hdirect
    have hstart : Found.Usable ts ⟨direct,[],insert c visit⟩ := ⟨hdirect.1,by simp⟩
    apply (memberLoop_ensuresOr ih hmembers hstart (by
      simp only
      omega)).bind
    intro found hfound
    apply (pickSolution_ensuresOr hcore hfound.1.allSol hfound.1.funcSol).bind
    intro res hres
    apply EnsuresOr.pure
    have hmemberTypes : ts.compoundMembers c = (ct.members.toList.map Prod.fst).filter ts.isCompoundType := by
      rw [compoundMembers, hct, Std.TreeMap.map_fst_toList_eq_keys]
      rfl
    have hown : (Found.Holds ⟨direct,[],insert c visit⟩ ∨ ∃ e ∈ ct.members.toList, CallsTo ts targetType e.1) ↔
        Offers true ts c targetType := by
      rw [offers_iff hct, ← hdirect.2]
      simp [Found.Holds]
    refine ⟨.enter hnew (hmemberTypes ▸ hfound.2.visits) .nil,?_⟩
    have hmem : c ∈ found.visit := hfound.2.visits.subset (Finset.mem_insert_self ..)
    rw [hres, ← Found.Holds, hfound.2.holds_iff, hown, false_or]
    constructor
    · rintro (ho | ⟨d,hd,hnot,ho⟩)
      · exact ⟨c,hmem,hnew,ho⟩
      · exact ⟨d,hd,fun hv => hnot (Finset.mem_insert_of_mem hv),ho⟩
    · rintro ⟨d,hd,hnot,ho⟩
      by_cases hdc : d = c
      · exact .inl (hdc ▸ ho)
      · exact .inr ⟨d,hd,by simp [hdc, hnot],ho⟩

/-- The search finds a way from a compound type exactly to the types of its
members at any depth, and to what they return. -/
theorem getClassMemberByType_ensuresOr {core : TypeID → Gen Str} (hcore : ∀ k, EnsuresOr E (AtLeast n) (core k) fun _ => True)
    (hnames : ts.MembersNamed) {c : TypeID} (hc : ts.isCompoundType c = true) :
    EnsuresOr E (AtLeast n) (getClassMemberByType ts core c targetType) fun res =>
      res ≠ [] ↔ MemberType true ts c targetType := by
  have hfuel : (ts.ids \ ∅).card < ts.own.compound.size + ts.statics.compound.size + 1 := by
    rw [Finset.sdiff_empty]
    exact Nat.lt_succ_of_le card_ids
  unfold getClassMemberByType
  apply (getClassMemberByTypeNoDuplicate_ensuresOr hcore hnames c ∅ hc (Finset.notMem_empty c) hfuel).bind
  intro r hr
  apply EnsuresOr.pure
  rw [hr.holds_iff, false_or, MemberType]
  constructor
  · rintro ⟨d,hd,_,ho⟩
    exact ⟨d,hr.visits.mem_iff.mp hd,ho⟩
  · rintro ⟨d,hd,ho⟩
    exact ⟨d,hr.visits.mem_iff.mpr hd,Finset.notMem_empty _,ho⟩

end Search

section Assertion
variable {ts : TypeSystem}

/-- `structure_member_gen_handler` where a variable stands for itself with no check
that it is of the type asked for. -/
def structureMemberUnchecked (weak : Bool) (ts : TypeSystem) (core : TypeID → Gen Str)
    (compoundVarMap : VectorMap TypeID Str) (memberType : TypeID) : Gen Str := do
  let compound ← randomPick compoundVarMap.toList
  assertThat (compound.2 ≠ []) .assertion
  let compoundVar ← randomPick compound.2
  let res ← getClassMemberByType ts core compound.1 memberType
  if res = [] then wholeVariable weak ts compound.1 compoundVar
  else return compoundVar ++ res

theorem mem_of_randomPick {α : Type} {l : List α} {a : α} {s s' : GenState} (h : randomPick l s = .ok (a,s')) : a ∈ l := by
  unfold randomPick at h
  split at h
  · cases h
  · rename_i a' ha
    cases h
    exact List.mem_of_getElem? ha

/-- A compound variable from which no way leads to the type is of the type. -/
theorem structureMemberGenHandler_unchecked {core : TypeID → Gen Str} {weak : Bool} {vars : VectorMap TypeID Str}
    {t : TypeID} (hvars : ∀ c ∈ vars, ∀ s s', getClassMemberByType ts core c t s = .ok ([],s') → t = c) :
    structureMemberGenHandler weak ts core vars t = structureMemberUnchecked weak ts core vars t := by
  funext s
  unfold structureMemberGenHandler structureMemberUnchecked
  apply bind_congr_run
  intro compound s₁ hcompound
  have hmem : compound.1 ∈ vars := VectorMap.mem_of_entry (mem_of_randomPick hcompound)
  apply bind_congr_run
  intro _ s₂ _
  apply bind_congr_run
  intro compoundVar s₃ _
  apply bind_congr_run
  intro res s₄ hres
  by_cases hnone : res = []
  · have hself : t = compound.1 := hvars compound.1 hmem s₃ s₄ (hnone ▸ hres)
    rw [if_pos hnone, if_pos hnone, assertThat, if_pos hself]
    rfl
  · rw [if_neg hnone, if_neg hnone]

/-- The two walks of the members find the same types, and so the assertion that
the one relies on holds for the variables that the other chose. -/
theorem memberWalks_agree (hnames : ts.MembersNamed) (core : TypeID → Gen Str) :
    (∀ c t s, ts.isCompoundType c = true →
      (∀ res s', getClassMemberByType ts core c t s = .ok (res,s') →
        (res ≠ [] ↔ ∃ types, getAllTypesFromCompoundType true ts c = .ok types ∧ t ∈ types)) ∧
      ∀ f, getClassMemberByType ts core c t s = .error f → ∃ k s', core k s' = .error f) ∧
    ∀ st ir sat, collectSatisfiableTypes true ts (collectAllVarDefinitionByType st ts ir) = .ok sat →
      ∀ t, structureMemberGenHandler true ts core (usable (collectAllVarDefinitionByType st ts ir) sat t .compound) t =
        structureMemberUnchecked true ts core (usable (collectAllVarDefinitionByType st ts ir) sat t .compound) t := by
  have hcore : ∀ k, EnsuresOr (fun f => ∃ k s', core k s' = .error f) (AtLeast 0) (core k) fun _ => True := by
    intro k
    exact ⟨fun _ _ _ _ _ => ⟨True.intro,Nat.zero_le _⟩,fun s _ _ hrun => ⟨k,s,hrun⟩⟩
  constructor
  · intro c t s hc
    have hsearch := @getClassMemberByType_ensuresOr _ 0 ts t core hcore hnames c hc
    refine ⟨fun res s' hrun => ?_,fun f hrun => hsearch.fails s f (Nat.zero_le _) hrun⟩
    obtain ⟨types,htypes,hmem⟩ := getAllTypesFromCompoundType_eq true hc
    rw [(hsearch.returns s res s' (Nat.zero_le _) hrun).1, ← hmem t]
    constructor
    · exact fun ht => ⟨types,htypes,ht⟩
    · rintro ⟨types',htypes',ht⟩
      rw [htypes] at htypes'
      cases htypes'
      exact ht
  · intro st ir sat hsat t
    obtain ⟨sat',hcollect,_,hhandlers⟩ := collected_satisfiable true st ts ir
    rw [hsat] at hcollect
    cases hcollect
    apply structureMemberGenHandler_unchecked
    intro c hmem s s' hrun
    obtain ⟨hcollected,hhandles⟩ := VectorMap.mem_restrict.mp hmem
    obtain ⟨v,hv,hkind⟩ := (@collect_sorted st ts ir).compound c hcollected
    have hsearch := @getClassMemberByType_ensuresOr _ 0 ts t core hcore hnames c (isCompoundType_of_kind hv hkind)
    rcases ((hhandlers t .compound c).mp hhandles).2 with h | h
    · exact h.symm
    · exact absurd rfl ((hsearch.returns s [] s' (Nat.zero_le _) hrun).1.mpr h)

def linkedTypes : TypeSystem :=
  (TypeSystem.construct (intConfig true) .initial).createCompoundType "L".toList [(10,"v".toList),(11,"next".toList)]

theorem linkedTypes_named : linkedTypes.MembersNamed := by
  have hown : linkedTypes.own.compound = (∅ : Std.TreeMap TypeID CompoundType).insert 11
      ⟨11,"L".toList,((∅ : VectorMap TypeID Str).push 10 "v".toList).push 11 "next".toList⟩ := rfl
  intro c ct hct
  rw [TypeTables.getCompoundType, linkedTypes.statics_ok.compound, hown, VectorMap.getElem?_insert_ite] at hct
  by_cases hc : (11 : TypeID) = c
  · rw [if_pos hc] at hct
    cases hct
    exact (VectorMap.filled_empty.push).push
  · simp [hc] at hct

theorem linkedWalks_agree : linkedTypes.compoundMembers 11 = [11] ∧
    ∃ types, getAllTypesFromCompoundType true linkedTypes 11 = .ok types ∧ 10 ∈ types := by
  have hrun : (getClassMemberByType linkedTypes (fun _ => genRandomNumString) 11 10 ⟨choices [],0,0⟩).map Prod.fst =
      .ok ".v".toList := by
    decide +kernel
  refine ⟨by decide +kernel,?_⟩
  cases hsearch : getClassMemberByType linkedTypes (fun _ => genRandomNumString) 11 10 ⟨choices [],0,0⟩ with
  | error f =>
    rw [hsearch] at hrun
    cases hrun
  | ok r =>
    rw [hsearch] at hrun
    have hfound : r.1 ≠ [] := by
      rw [Except.ok.inj hrun]
      decide
    exact (((memberWalks_agree linkedTypes_named fun _ => genRandomNumString).1 11 10 ⟨choices [],0,0⟩
      (by decide +kernel)).1 r.1 r.2 hsearch).mp hfound

end Assertion

end Generator

end PolyGlot
