import PolyGlot.Generator.Expression
import PolyGlot.Types.Names

set_option autoImplicit false

/-! # Typing of the generated expressions

The expressions and the types they have, and that what the generator returns is
such an expression. A parameter of the judgement says which types a function
takes for one of its parameters.
-/
namespace PolyGlot

namespace Generator

open Prog TypeSystem

inductive Expr
  | number (n : ℕ)
  | access (x : Str) (path : List Str)
  | call (receiver : Option (Str × List Str)) (f : Str) (args : List Expr)

def renderPath (path : List Str) : Str := path.flatMap (memberStr ++ ·)

def renderReceiver : Option (Str × List Str) → Str
  | none => []
  | some (x, path) => x ++ renderPath path ++ memberStr

def renderCall (f : Str) (args : List Str) : Str := f ++ ['('] ++ [','].intercalate args ++ [')']

mutual

def Expr.render : Expr → Str
  | .number n => intText n
  | .access x path => x ++ renderPath path
  | .call receiver f args => renderReceiver receiver ++ renderCall f (Expr.renderAll args)

def Expr.renderAll : List Expr → List Str
  | [] => []
  | e :: es => e.render :: Expr.renderAll es

end

mutual

/-- The variables and functions that an expression names; a member is none, it is
named through its variable. -/
def Expr.names : Expr → List Str
  | .number _ => []
  | .access x _ => [x]
  | .call none f args => f :: Expr.namesAll args
  | .call (some (x, _)) _ args => x :: Expr.namesAll args

def Expr.namesAll : List Expr → List Str
  | [] => []
  | e :: es => e.names ++ Expr.namesAll es

end

/-- A parameter of type `kAllTypes` takes every type. -/
def Fits (k t : TypeID) : Prop := k ≠ SpecialType.kAllTypes → t = k

section Judgement
variable (ts : TypeSystem) (m : VarMaps) (takes : TypeID → TypeID → Prop)

inductive Chain : TypeID → List Str → TypeID → Prop
  | nil {c : TypeID} : Chain c [] c
  | cons {c d t : TypeID} {ct : CompoundType} {name : Str} {path : List Str} : ts.getCompoundType c = some ct →
      name ∈ ct.members.vals d → Chain d path t → Chain c (name :: path) t

def ListsMember (d s : TypeID) : Prop := ∃ ct, ts.getCompoundType d = some ct ∧ s ∈ ct.members

mutual

inductive HasType : Expr → TypeID → Prop
  | number {n : ℕ} {t : TypeID} : HasType (.number n) t
  | simple {x : Str} {t : TypeID} : x ∈ (m .simple).vals t → HasType (.access x []) t
  | member {x : Str} {c t : TypeID} {path : List Str} : x ∈ (m .compound).vals c → Chain ts c path t →
      HasType (.access x path) t
  | function {s : TypeID} {f : FunctionType} {args : List Expr} : s ∈ m .function → ts.getFunctionType s = some f →
      HasTypes args f.argTypes → HasType (.call none f.name args) f.returnType
  | method {x : Str} {c d s : TypeID} {path : List Str} {f : FunctionType} {args : List Expr} :
      x ∈ (m .compound).vals c → Chain ts c path d → ListsMember ts d s → ts.getFunctionType s = some f →
      HasTypes args f.argTypes → HasType (.call (some (x, path)) f.name args) f.returnType

inductive HasTypes : List Expr → List TypeID → Prop
  | nil : HasTypes [] []
  | cons {e : Expr} {es : List Expr} {k t : TypeID} {ks : List TypeID} : takes k t → HasType e t →
      HasTypes es ks → HasTypes (e :: es) (k :: ks)

end

def Typed (t : TypeID) (res : Str) : Prop := ∃ t' e, Fits t t' ∧ HasType ts m takes e t' ∧ e.render = res

inductive Leads (c t : TypeID) : Str → Prop
  | path {path : List Str} : Chain ts c path t → Leads c t (renderPath path)
  | call {path : List Str} {d s : TypeID} {f : FunctionType} {args : List Expr} : Chain ts c path d →
      ListsMember ts d s → ts.getFunctionType s = some f → f.returnType = t → HasTypes ts m takes args f.argTypes →
      Leads c t (renderPath path ++ (memberStr ++ renderCall f.name (Expr.renderAll args)))

end Judgement

section Rules
variable {ts : TypeSystem} {m : VarMaps} {takes : TypeID → TypeID → Prop} {c d t : TypeID} {sol : Str}

theorem Chain.single {ct : CompoundType} {name : Str} (hct : ts.getCompoundType c = some ct)
    (hname : name ∈ ct.members.vals t) : Chain ts c [name] t := .cons hct hname .nil

/-- A way from the type of a member is, behind the member, a way from the type
that has it. -/
theorem Leads.through {ct : CompoundType} {name : Str} (hct : ts.getCompoundType c = some ct)
    (hname : name ∈ ct.members.vals d) (h : Leads ts m takes d t sol) :
    Leads ts m takes c t (memberStr ++ name ++ sol) := by
  have hpath : ∀ path, renderPath (name :: path) = memberStr ++ name ++ renderPath path := fun _ => rfl
  cases h with
  | path hchain =>
    rw [← hpath]
    exact .path (.cons hct hname hchain)
  | call hchain hlists hf hret hargs =>
    rw [← List.append_assoc, ← hpath]
    exact .call (.cons hct hname hchain) hlists hf hret hargs

theorem Leads.typed {x : Str} (hx : x ∈ (m .compound).vals c) (h : Leads ts m takes c t sol) :
    Typed ts m takes t (x ++ sol) := by
  cases h with
  | path hchain => exact ⟨t,.access x _,fun _ => rfl,.member hx hchain,rfl⟩
  | @call path _ _ f args hchain hlists hf hret hargs =>
    refine ⟨t,.call (some (x, path)) f.name args,fun _ => rfl,?_,?_⟩
    · rw [← hret]
      exact .method hx hchain hlists hf hargs
    · simp [Expr.render, renderReceiver]

theorem intText_digit {n : ℕ} {c : Char} (hc : c ∈ intText n) : c.isDigit := by
  have htext : intText n = Nat.toDigits 10 n := by simp [intText]
  exact Nat.isDigit_of_mem_toDigits (by decide) (by decide) (htext ▸ hc)

/-- A word that is the text of an expression is the name of a variable. -/
theorem HasType.variable_of_word {e : Expr} (h : HasType ts m takes e t) (hdot : '.' ∉ e.render) (hparen : '(' ∉ e.render)
    (hletter : ∃ c ∈ e.render, c.isDigit = false) :
    ∃ k d, (k = .simple ∨ k = .compound) ∧ e.render ∈ (m k).vals d := by
  have hcall : ∀ receiver f args, '(' ∈ (Expr.call receiver f args).render := by
    intro receiver f args
    simp [Expr.render, renderCall]
  cases h with
  | number =>
    obtain ⟨c,hc,hno⟩ := hletter
    rw [Expr.render] at hc
    rw [intText_digit hc] at hno
    cases hno
  | @simple x _ hx => exact ⟨.simple,t,.inl rfl,by simpa [Expr.render, renderPath] using hx⟩
  | @member x c _ path hx _ =>
    cases path with
    | nil => exact ⟨.compound,c,.inr rfl,by simpa [Expr.render, renderPath] using hx⟩
    | cons name path => exact absurd (by simp [Expr.render, renderPath, memberStr]) hdot
  | function => exact absurd (hcall _ _ _) hparen
  | method => exact absurd (hcall _ _ _) hparen

def Nameable (ts : TypeSystem) (m : VarMaps) (x : Str) : Prop :=
  (∃ k d, (k = .simple ∨ k = .compound) ∧ x ∈ (m k).vals d) ∨
    ∃ s ∈ m .function, ∃ f, ts.getFunctionType s = some f ∧ f.name = x

mutual

theorem HasType.nameable {e : Expr} {t : TypeID} (h : HasType ts m takes e t) : ∀ x ∈ e.names, Nameable ts m x := by
  cases h with
  | number => simp [Expr.names]
  | simple hx => simpa [Expr.names] using .inl ⟨.simple,_,.inl rfl,hx⟩
  | member hx _ => simpa [Expr.names] using .inl ⟨.compound,_,.inr rfl,hx⟩
  | function hs hf hargs =>
    rw [Expr.names, List.forall_mem_cons]
    exact ⟨.inr ⟨_,hs,_,hf,rfl⟩,hargs.nameable⟩
  | method hx _ _ _ hargs =>
    rw [Expr.names, List.forall_mem_cons]
    exact ⟨.inl ⟨.compound,_,.inr rfl,hx⟩,hargs.nameable⟩

theorem HasTypes.nameable {es : List Expr} {ks : List TypeID} (h : HasTypes ts m takes es ks) :
    ∀ x ∈ Expr.namesAll es, Nameable ts m x := by
  cases h with
  | nil => simp [Expr.namesAll]
  | cons _ he hes =>
    rw [Expr.namesAll, List.forall_mem_append]
    exact ⟨he.nameable,hes.nameable⟩

end

theorem Expr.names_of_word {e : Expr} (hdot : '.' ∉ e.render) (hparen : '(' ∉ e.render)
    (hletter : ∃ c ∈ e.render, c.isDigit = false) : e.render ∈ e.names := by
  cases e with
  | number n =>
    obtain ⟨c,hc,hno⟩ := hletter
    rw [Expr.render] at hc
    rw [intText_digit hc] at hno
    cases hno
  | access x path =>
    cases path with
    | nil => simp [Expr.render, Expr.names, renderPath]
    | cons name path => exact absurd (by simp [Expr.render, renderPath, memberStr]) hdot
  | call receiver f args => exact absurd (by simp [Expr.render, renderCall]) hparen

theorem typed_number (n : ℕ) : Typed ts m takes t (intText n) := ⟨t,.number n,fun _ => rfl,.number,rfl⟩

end Rules

theorem randomPick_returns {α : Type} (l : List α) : Returns (randomPick l) (· ∈ l) := by
  constructor
  intro s a t hrun
  unfold randomPick at hrun
  cases h : l[s.rand.head % l.length]? with
  | none => simp [h] at hrun
  | some b =>
    simp only [h, Except.ok.injEq, Prod.mk.injEq] at hrun
    exact hrun.1 ▸ List.mem_of_getElem? h

theorem genRandomNumString_returns {ts : TypeSystem} {m : VarMaps} {takes : TypeID → TypeID → Prop} {t : TypeID} :
    Returns genRandomNumString (Typed ts m takes t) :=
  Returns.after fun n => Returns.pure (typed_number n)

def commaEnded (args : List Str) : Str := args.flatMap (· ++ [','])

theorem closeArguments_eq (f : Str) (args : List Str) :
    closeArguments (f ++ ['('] ++ commaEnded args) = renderCall f args := by
  have hlast : ∀ args : List Str, args ≠ [] → commaEnded args = [','].intercalate args ++ [','] := by
    intro args hargs
    induction args with
    | nil => exact absurd rfl hargs
    | cons a args ih =>
      cases args with
      | nil => simp [commaEnded]
      | cons b args =>
        have hstep : commaEnded (a :: b :: args) = a ++ [','] ++ commaEnded (b :: args) := rfl
        rw [hstep, ih (List.cons_ne_nil _ _)]
        simp [List.intercalate]
  unfold closeArguments renderCall
  by_cases hargs : args = []
  · subst hargs
    simp [commaEnded]
  · rw [hlast args hargs, ← List.append_assoc, List.getLast?_concat, if_pos rfl, List.dropLast_concat]

section Handlers
variable {ts : TypeSystem} {m : VarMaps} {core : TypeID → Gen Str}

theorem appendArguments_returns (hcore : ∀ k, Returns (core k) (Typed ts m Fits k)) (ks : List TypeID) (res : Str) :
    Returns (appendArguments core ks res) fun out =>
      ∃ args, HasTypes ts m Fits args ks ∧ out = res ++ commaEnded (Expr.renderAll args) := by
  induction ks generalizing res with
  | nil => exact Returns.pure ⟨[],.nil,by simp [commaEnded, Expr.renderAll]⟩
  | cons k ks ih =>
    unfold appendArguments
    apply (hcore k).bind
    intro arg harg
    apply (ih _).mono
    intro out hout
    obtain ⟨t,e,hfits,htype,rfl⟩ := harg
    obtain ⟨args,hargs,rfl⟩ := hout
    exact ⟨e :: args,.cons hfits htype hargs,by simp [commaEnded, Expr.renderAll]⟩

theorem functionCallGenHandler_returns (hcore : ∀ k, Returns (core k) (Typed ts m Fits k))
    (functionMap : VectorMap TypeID Str) : Returns (functionCallGenHandler ts core functionMap) fun res =>
      ∃ s ∈ functionMap, ∃ f, ts.getFunctionType s = some f ∧ ∃ args, HasTypes ts m Fits args f.argTypes ∧
        res = renderCall f.name (Expr.renderAll args) := by
  unfold functionCallGenHandler
  apply Returns.after
  intro _
  apply (randomPick_returns _).bind
  intro e he
  cases hf : ts.getFunctionType e.1 with
  | none => exact Returns.fail
  | some f =>
    apply Returns.after
    intro _
    apply (appendArguments_returns hcore f.argTypes _).bind
    intro res hres
    obtain ⟨args,hargs,rfl⟩ := hres
    exact Returns.pure ⟨e.1,VectorMap.mem_of_entry he,f,hf,args,hargs,closeArguments_eq f.name _⟩

section Search
variable {targetType c : TypeID} {ct : CompoundType}

theorem directMembers_returns (hct : ts.getCompoundType c = some ct) {members : List (TypeID × List Str)}
    (hmembers : ∀ e ∈ members, e ∈ ct.members.toList) :
    Returns (directMembers targetType members) fun sols => ∀ sol ∈ sols, Leads ts m Fits c targetType sol := by
  induction members with
  | nil => exact Returns.pure (by simp)
  | cons member rest ih =>
    have hrest := ih fun e he => hmembers e (List.mem_cons_of_mem _ he)
    unfold directMembers
    apply Returns.ite
    · intro htarget
      apply (randomPick_returns _).bind
      intro name hname
      apply hrest.bind
      intro others hothers
      apply Returns.pure
      rw [List.forall_mem_cons]
      refine ⟨?_,hothers⟩
      have hvals : ct.members.vals targetType = member.2 :=
        VectorMap.vals_of_entry (htarget ▸ hmembers member (List.mem_cons_self ..))
      have hleads : Leads ts m Fits c targetType (renderPath [name]) := .path (.single hct (hvals ▸ hname))
      simpa [renderPath] using hleads
    · intro _
      exact hrest

structure Found.Sound (ts : TypeSystem) (m : VarMaps) (targetType c : TypeID) (found : Found) : Prop where
  allSol : ∀ sol ∈ found.allSol, Leads ts m Fits c targetType sol
  funcSol : ∀ f ∈ found.funcSol, ∃ s, ListsMember ts c s ∧ ts.getFunctionType s = some f ∧ f.returnType = targetType

def SearchSound (ts : TypeSystem) (m : VarMaps) (targetType : TypeID)
    (search : TypeID → Finset TypeID → Gen (Str × Finset TypeID)) : Prop :=
  ∀ d visit, Returns (search d visit) fun r => r.1 = [] ∨ Leads ts m Fits d targetType r.1

theorem Found.Sound.push {found : Found} (h : found.Sound ts m targetType c) {sol : Str} {visit : Finset TypeID}
    (hsol : Leads ts m Fits c targetType sol) :
    Found.Sound ts m targetType c ⟨found.allSol ++ [sol],found.funcSol,visit⟩ := by
  refine ⟨fun s hs => ?_,h.funcSol⟩
  rcases List.mem_append.mp hs with hs | hs
  · exact h.allSol s hs
  · rw [List.mem_singleton.mp hs]
    exact hsol

theorem memberLoop_returns (hct : ts.getCompoundType c = some ct) {search : TypeID → Finset TypeID → Gen (Str × Finset TypeID)}
    (hsearch : SearchSound ts m targetType search) {members : List (TypeID × List Str)}
    (hmembers : ∀ e ∈ members, e ∈ ct.members.toList) {found : Found} (hfound : found.Sound ts m targetType c) :
    Returns (memberLoop ts search targetType members found) (Found.Sound ts m targetType c) := by
  induction members generalizing found with
  | nil => exact Returns.pure hfound
  | cons member rest ih =>
    obtain ⟨hmember,hrest⟩ := List.forall_mem_cons.mp hmembers
    have hvals : ct.members.vals member.1 = member.2 := VectorMap.vals_of_entry hmember
    unfold memberLoop
    apply Returns.ite
    · intro _
      apply Returns.ite
      · intro _
        exact ih hrest hfound
      · intro _
        apply (hsearch member.1 found.visit).bind
        intro r hr
        apply Returns.ite
        · intro _
          exact ih hrest ⟨hfound.allSol,hfound.funcSol⟩
        · intro hne
          apply (randomPick_returns _).bind
          intro name hname
          exact ih hrest (hfound.push ((hr.resolve_left hne).through hct (hvals ▸ hname)))
    · intro _
      apply Returns.ite
      · intro _
        apply Returns.ite
        · intro htarget
          apply (randomPick_returns _).bind
          intro name hname
          have hleads : Leads ts m Fits c targetType (renderPath [name]) :=
            .path (.single hct (htarget ▸ hvals ▸ hname))
          exact ih hrest (hfound.push (by simpa [renderPath] using hleads))
        · intro _
          cases hf : ts.getFunctionType member.1 with
          | none => exact Returns.fail
          | some f =>
            apply Returns.ite
            · intro _
              exact ih hrest hfound
            · intro hret
              apply ih hrest
              refine ⟨hfound.allSol,fun g hg => ?_⟩
              rcases List.mem_append.mp hg with hg | hg
              · exact hfound.funcSol g hg
              · rw [List.mem_singleton.mp hg]
                exact ⟨member.1,⟨ct,hct,VectorMap.mem_of_entry hmember⟩,hf,not_not.mp hret⟩
      · intro _
        exact ih hrest hfound

theorem callMember_returns (hcore : ∀ k, Returns (core k) (Typed ts m Fits k)) {funcSol : List FunctionType}
    (hfuncs : ∀ f ∈ funcSol, ∃ s, ListsMember ts c s ∧ ts.getFunctionType s = some f ∧ f.returnType = targetType) :
    Returns (callMember ts core funcSol) (Leads ts m Fits c targetType) := by
  unfold callMember
  apply (randomPick_returns _).bind
  intro f hf
  obtain ⟨s,hlists,hget,hret⟩ := hfuncs f hf
  apply (functionCallGenHandler_returns hcore _).bind
  intro res hres
  obtain ⟨s',hs',f',hget',args,hargs,rfl⟩ := hres
  -- the map holds the type of `f` alone, which is its id
  have hsame : s' = s := by
    rcases VectorMap.mem_push.mp hs' with h | h
    · exact h.symm.trans (getFunctionType_typeId hget)
    · simp at h
  rw [hsame, hget] at hget'
  cases hget'
  exact Returns.pure (.call .nil hlists hget hret hargs)

theorem pickSolution_returns (hcore : ∀ k, Returns (core k) (Typed ts m Fits k)) {found : Found}
    (hfound : found.Sound ts m targetType c) : Returns (pickSolution ts core found.allSol found.funcSol) fun res =>
      res = [] ∨ Leads ts m Fits c targetType res := by
  have hpick : Returns (randomPick found.allSol) fun res => res = [] ∨ Leads ts m Fits c targetType res :=
    (randomPick_returns _).mono fun sol hsol => .inr (hfound.allSol sol hsol)
  have hcall : Returns (callMember ts core found.funcSol) fun res => res = [] ∨ Leads ts m Fits c targetType res :=
    (callMember_returns hcore hfound.funcSol).mono fun _ => .inr
  unfold pickSolution
  apply Returns.ite
  · intro _
    exact hpick
  · intro _
    apply Returns.ite
    · intro _
      exact hcall
    · intro _
      apply Returns.ite
      · intro _
        exact Returns.after fun coin => Returns.ite (fun _ => hcall) fun _ => hpick
      · intro _
        exact Returns.pure (.inl rfl)

theorem getClassMemberByTypeNoDuplicate_returns (hcore : ∀ k, Returns (core k) (Typed ts m Fits k)) (fuel : ℕ) :
    SearchSound ts m targetType (getClassMemberByTypeNoDuplicate ts core targetType fuel) := by
  induction fuel with
  | zero => exact fun _ _ => Returns.fail
  | succ fuel ih =>
    intro d visit
    unfold getClassMemberByTypeNoDuplicate
    cases hct : ts.getCompoundType d with
    | none => exact Returns.fail
    | some ct =>
      apply (directMembers_returns hct fun _ h => h).bind
      intro direct hdirect
      apply (memberLoop_returns hct ih (fun _ h => h) ⟨hdirect,by simp⟩).bind
      intro found hfound
      apply (pickSolution_returns hcore hfound).bind
      intro res hres
      exact Returns.pure hres

end Search

theorem structureMemberGenHandler_returns {weak : Bool} (hcore : ∀ k, Returns (core k) (Typed ts m Fits k))
    {compoundVarMap : VectorMap TypeID Str} (hvars : ∀ c x, x ∈ compoundVarMap.vals c → x ∈ (m .compound).vals c)
    (hsorted : m.Sorted ts) {memberType : TypeID} :
    Returns (structureMemberGenHandler weak ts core compoundVarMap memberType) (Typed ts m Fits memberType) := by
  unfold structureMemberGenHandler
  apply (randomPick_returns _).bind
  intro compound hcompound
  apply Returns.after
  intro _
  apply (randomPick_returns _).bind
  intro x hx
  have hmem : x ∈ (m .compound).vals compound.1 := hvars _ _ (VectorMap.vals_of_entry hcompound ▸ hx)
  have hsearch : Returns (getClassMemberByType ts core compound.1 memberType) fun res =>
      res = [] ∨ Leads ts m Fits compound.1 memberType res :=
    (getClassMemberByTypeNoDuplicate_returns hcore _ compound.1 ∅).bind fun _ hr => Returns.pure hr
  apply hsearch.bind
  intro res hres
  apply Returns.ite
  · intro _
    apply Returns.assertThat.bind
    intro _ hsame
    obtain ⟨v,hv,hkind⟩ := hsorted.compound compound.1 (VectorMap.mem_of_vals hmem)
    rw [wholeVariable_eq (isCompoundType_of_kind hv hkind)]
    exact Returns.pure ⟨memberType,.access x [],fun _ => rfl,.member hmem (hsame ▸ .nil),by
      simp [Expr.render, renderPath]⟩
  · intro hne
    exact Returns.pure ((hres.resolve_left hne).typed hmem)

end Handlers

section Core
variable {weak : Bool} {ts : TypeSystem} {m : VarMaps} {sat : Satisfiable}

theorem makeValue_returns {core : TypeID → Gen Str} (hcore : ∀ k, Returns (core k) (Typed ts m Fits k))
    (hsorted : m.Sorted ts) (hsat : ∀ t k s, s ∈ sat.handlers t k ↔ Handles weak ts m t k s) (type : TypeID) :
    Returns (makeValue weak ts m sat core type) (Typed ts m Fits type) := by
  have husable : ∀ k c x, x ∈ (usable m sat type k).vals c → x ∈ (m k).vals c := fun k c x hx =>
    (VectorMap.mem_vals_restrict.mp hx).1
  unfold makeValue
  apply Returns.ite
  · intro _
    exact genRandomNumString_returns
  · intro _
    apply Returns.after
    intro s
    apply Returns.ite
    · intro _
      exact genRandomNumString_returns
    · intro _
      apply Returns.after
      intro choice
      apply Returns.ite
      · intro _
        exact Returns.fail
      · intro _
        apply Returns.ite
        · intro _
          apply (functionCallGenHandler_returns hcore _).mono
          intro res hres
          obtain ⟨s,hs,f,hf,args,hargs,rfl⟩ := hres
          -- only functions that return the type are usable
          obtain ⟨hmem,hhandles⟩ := VectorMap.mem_restrict.mp hs
          obtain ⟨_,g,hg,_,hret⟩ := (hsat type .function s).mp hhandles
          rw [hf] at hg
          cases hg
          exact ⟨type,.call none f.name args,fun _ => rfl,hret ▸ .function hmem hf hargs,rfl⟩
        · intro _
          apply Returns.ite
          · intro _
            exact structureMemberGenHandler_returns hcore (husable .compound) hsorted
          · intro _
            apply Returns.after
            intro _
            apply (randomPick_returns _).mono
            intro x hx
            exact ⟨type,.access x [],fun _ => rfl,.simple (husable .simple type x hx),by simp [Expr.render, renderPath]⟩

theorem generateExpressionByTypeCore_returns (hsorted : m.Sorted ts)
    (hsat : ∀ t k s, s ∈ sat.handlers t k ↔ Handles weak ts m t k s) (fuel : ℕ) (type : TypeID) :
    Returns (generateExpressionByTypeCore weak ts m sat fuel type) (Typed ts m Fits type) := by
  induction fuel generalizing type with
  | zero => exact Returns.fail
  | succ fuel ih =>
    unfold generateExpressionByTypeCore
    apply Returns.after
    intro s
    apply Returns.ite
    · intro _
      exact genRandomNumString_returns
    · intro _
      apply Returns.after
      intro _
      apply Returns.after
      intro _
      have hpick : Returns (pickType ts sat type) fun t => Fits type t := by
        unfold pickType
        apply Returns.ite
        · intro h
          exact Returns.trivial.mono fun _ _ hne => absurd h.1 hne
        · intro _
          exact Returns.pure fun _ => rfl
      apply hpick.bind
      intro t ht
      have hfits : ∀ res, Typed ts m Fits t res → Typed ts m Fits type res := by
        intro res hres
        obtain ⟨t',e,hfits,he,hrender⟩ := hres
        refine ⟨t',e,fun hne => ?_,he,hrender⟩
        have hsame := ht hne
        subst hsame
        exact hfits hne
      apply Returns.ite
      · intro _
        exact (makeValue_returns ih hsorted hsat t).mono hfits
      · intro _
        exact genRandomNumString_returns

end Core

/-- A text comes from the outermost call, with the handlers that were collected. -/
theorem generateExpression_core {weak : Bool} {st : ScopeTree} {ts : TypeSystem} {ir : IRNode} {type : TypeID}
    {rand rand' : Rand} {res : Str} (hrun : generateExpression weak st ts ir type rand = .ok (res,rand')) :
    ∃ sat s, (∀ t k x, x ∈ sat.handlers t k ↔ Handles weak ts (collectAllVarDefinitionByType st ts ir) t k x) ∧
      generateExpressionByTypeCore weak ts (collectAllVarDefinitionByType st ts ir) sat 52 type ⟨rand,0,0⟩ = .ok (res,s) := by
  obtain ⟨sat,hcollect,_,hsat⟩ := collected_satisfiable weak st ts ir
  unfold generateExpression at hrun
  simp only [hcollect] at hrun
  cases hcore : generateExpressionByTypeCore weak ts (collectAllVarDefinitionByType st ts ir) sat 52 type ⟨rand,0,0⟩ with
  | error f => simp [hcore] at hrun
  | ok r =>
    rw [hcore] at hrun
    dsimp only at hrun
    split at hrun
    · cases hrun
    · cases hrun
      exact ⟨sat,r.2,hsat,hcore⟩

/-- What the generator returns is the text of an expression that has the type
asked for, where a parameter of type `kAllTypes` takes an argument of any type. -/
theorem generateExpression_typed {weak : Bool} {st : ScopeTree} {ts : TypeSystem} {ir : IRNode} {type : TypeID}
    {rand rand' : Rand} {res : Str} (hrun : generateExpression weak st ts ir type rand = .ok (res,rand')) :
    Typed ts (collectAllVarDefinitionByType st ts ir) Fits type res := by
  obtain ⟨sat,hcollect,_,hsat⟩ := collected_satisfiable weak st ts ir
  unfold generateExpression at hrun
  simp only [hcollect] at hrun
  cases hcore : generateExpressionByTypeCore weak ts (collectAllVarDefinitionByType st ts ir) sat 52 type ⟨rand,0,0⟩ with
  | error f => simp [hcore] at hrun
  | ok r =>
    rw [hcore] at hrun
    by_cases hempty : r.1 = []
    · simp [hempty] at hrun
    · simp only [if_neg hempty, Except.ok.injEq, Prod.mk.injEq] at hrun
      exact hrun.1 ▸ (generateExpressionByTypeCore_returns collect_sorted hsat 52 type).of_run _ _ _ hcore

def wildcardTypes : TypeSystem :=
  (TypeSystem.construct (intConfig true) .initial).createFunctionType "f".toList 10 [SpecialType.kAllTypes] ["p".toList]

def globalScope (defs : List Definition) : ScopeTree :=
  defs.foldl (fun st d => (st.addDefinition 1 d).toOption.getD st) (ScopeTree.empty.genScope .kScopeGlobal none (by simp))

def wildcardScopes : ScopeTree :=
  globalScope [⟨"x".toList,10,1⟩,⟨"y".toList,SpecialType.kAllTypes,2⟩,⟨"f".toList,11,3⟩]

def useNode : IRNode := ⟨1,none,.string FIXMETAG,.kDataDefault,.kScopeDefault,1,4⟩

def choices (l : List ℕ) : Rand := fun n => l.getD n 0

abbrev wildcardMaps : VarMaps := collectAllVarDefinitionByType wildcardScopes wildcardTypes useNode

theorem wildcard_simple {t : TypeID} {x : Str} (h : x ∈ (wildcardMaps .simple).vals t) :
    t = 10 ∧ x = "x".toList ∨ t = SpecialType.kAllTypes ∧ x = "y".toList := by
  have hlist : (wildcardMaps .simple).toList = [(SpecialType.kAllTypes,["y".toList]),(10,["x".toList])] := by
    decide +kernel
  have hentry := VectorMap.exists_entry h
  rw [hlist] at hentry
  simp only [List.mem_cons, Prod.mk.injEq, List.not_mem_nil, or_false] at hentry
  rcases hentry with ⟨rfl,hl⟩ | ⟨rfl,hl⟩
  · rw [hl, List.mem_singleton] at h
    exact .inr ⟨rfl,h⟩
  · rw [hl, List.mem_singleton] at h
    exact .inl ⟨rfl,h⟩

theorem wildcard_compound {t : TypeID} {x : Str} : x ∉ (wildcardMaps .compound).vals t := by
  intro h
  have hlist : (wildcardMaps .compound).toList = [] := by decide +kernel
  have hentry := VectorMap.exists_entry h
  rw [hlist] at hentry
  cases hentry

theorem wildcard_function {s : TypeID} {f : FunctionType} (h : wildcardTypes.getFunctionType s = some f) :
    f.name = "f".toList ∧ f.argTypes = [SpecialType.kAllTypes] := by
  have hown : wildcardTypes.own.function =
      (∅ : Std.TreeMap TypeID FunctionType).insert 11 ⟨11,"f".toList,10,["p".toList],[SpecialType.kAllTypes]⟩ := rfl
  rw [TypeTables.getFunctionType, wildcardTypes.statics_ok.function, hown, VectorMap.getElem?_insert_ite] at h
  by_cases hs : (11 : TypeID) = s
  · rw [if_pos hs] at h
    cases h
    exact ⟨rfl,rfl⟩
  · simp [hs] at h

section Strict
variable {e : Expr} {t : TypeID}

/-- The name `x` alone is the text of an `INT`. -/
theorem wildcard_name (h : HasType wildcardTypes wildcardMaps (fun k t => t = k) e t) (hrender : e.render = "x".toList) :
    t = 10 := by
  cases h with
  | @number n =>
    have hdigit : ('x' : Char).isDigit := intText_digit (n := n) (by rw [← Expr.render, hrender]; decide)
    cases hdigit
  | @simple x _ hx =>
    rcases wildcard_simple hx with ⟨ht,_⟩ | ⟨_,rfl⟩
    · exact ht
    · cases hrender
  | member hx => exact absurd hx wildcard_compound
  | function _ hf =>
    rw [Expr.render, (wildcard_function hf).1] at hrender
    simp [renderReceiver, renderCall] at hrender
  | method hx => exact absurd hx wildcard_compound

theorem wildcard_call (h : HasType wildcardTypes wildcardMaps (fun k t => t = k) e t) : e.render ≠ "f(x)".toList := by
  intro hrender
  cases h with
  | @number n =>
    have hdigit : ('f' : Char).isDigit := intText_digit (n := n) (by rw [← Expr.render, hrender]; decide)
    cases hdigit
  | @simple x _ hx =>
    rcases wildcard_simple hx with ⟨_,rfl⟩ | ⟨_,rfl⟩ <;> cases hrender
  | member hx => exact absurd hx wildcard_compound
  | function _ hf hargs =>
    obtain ⟨hname,htypes⟩ := wildcard_function hf
    rw [htypes] at hargs
    cases hargs with
    | @cons e _ _ _ _ htakes harg hrest =>
      cases hrest
      rw [Expr.render, hname] at hrender
      have harg' : e.render ++ [')'] = "x".toList ++ [')'] := by
        simpa [renderReceiver, renderCall, Expr.renderAll] using hrender
      rw [wildcard_name harg ((List.append_left_inj _).mp harg')] at htakes
      cases htakes
  | method hx => exact absurd hx wildcard_compound

end Strict

theorem wildcard_run : ∃ rand', generateExpression true wildcardScopes wildcardTypes useNode 10
    (choices [2,0,1,10,0]) = .ok ("f(x)".toList,rand') := by
  have hrun : (generateExpression true wildcardScopes wildcardTypes useNode 10 (choices [2,0,1,10,0])).map Prod.fst =
      .ok "f(x)".toList := by
    decide +kernel
  cases hgen : generateExpression true wildcardScopes wildcardTypes useNode 10 (choices [2,0,1,10,0]) with
  | error f =>
    rw [hgen] at hrun
    cases hrun
  | ok r =>
    rw [hgen] at hrun
    exact ⟨r.2,by rw [← Except.ok.inj hrun]⟩

theorem wildcardArgument_typed : ∃ res rand',
    generateExpression true wildcardScopes wildcardTypes useNode 10 (choices [2,0,1,10,0]) = .ok (res,rand') ∧
      Typed wildcardTypes wildcardMaps Fits 10 res := by
  obtain ⟨rand',hrun⟩ := wildcard_run
  exact ⟨_,rand',hrun,generateExpression_typed hrun⟩

theorem wildcardArgument_untyped : ∃ res rand', wildcardTypes.NoPointers ∧
    generateExpression true wildcardScopes wildcardTypes useNode 10 (choices [2,0,1,10,0]) = .ok (res,rand') ∧ res ≠ [] ∧
      ¬ Typed wildcardTypes wildcardMaps (fun k t => t = k) 10 res := by
  obtain ⟨rand',hrun⟩ := wildcard_run
  refine ⟨_,rand',noPointers_of_entries (by decide +kernel),hrun,by decide,fun htyped => ?_⟩
  obtain ⟨t,e,_,htype,hrender⟩ := htyped
  exact wildcard_call htype hrender

end Generator

end PolyGlot
