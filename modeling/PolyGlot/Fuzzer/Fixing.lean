import PolyGlot.Fuzzer.TestCases
import PolyGlot.Validate.SourceOrder

set_option autoImplicit false

/-! # Test cases of the semantic mode

Every mutant of a count is validated, and none is given up: the texts of a count
are those of its mutants, one for each and in their order, with an expression of
the generator at each place that asks for one and nothing else changed.
-/
namespace PolyGlot

open BinaryTree TreeHeap Prog

namespace IR.DataAtLeaves

variable {t u : IR} {p : Path}

theorem subtreeAt (h : IR.DataAtLeaves t) (p : Path) : IR.DataAtLeaves (t.subtreeAt p) := by
  induction p generalizing t with
  | nil => exact h
  | cons s p ih => exact ih (h.child s)

theorem deepCopy (h : IR.DataAtLeaves t) : IR.DataAtLeaves (PolyGlot.deepCopy t) := by
  induction t with
  | nil => exact h
  | node n l r ihl ihr =>
    refine ⟨fun hn => ?_,ihl h.2.1,ihr h.2.2⟩
    obtain ⟨rfl,rfl⟩ := h.1 hn
    exact ⟨rfl,rfl⟩

/-- A child that is there is exchanged. -/
theorem setChild (h : IR.DataAtLeaves t) (hu : IR.DataAtLeaves u) {s : Side} (hchild : t.child s ≠ .nil) :
    IR.DataAtLeaves (BinaryTree.setChild s u t) := by
  cases t with
  | nil => exact h
  | node n l r =>
    have hn : ¬ n.containData = true := by
      intro hn
      obtain ⟨rfl,rfl⟩ := h.1 hn
      cases s <;> exact hchild rfl
    cases s with
    | left => exact ⟨fun hn' => absurd hn' hn,hu,h.2.2⟩
    | right => exact ⟨fun hn' => absurd hn' hn,h.2.1,hu⟩

theorem replaceAt (h : IR.DataAtLeaves t) (hu : IR.DataAtLeaves u) (hp : t.subtreeAt p ≠ .nil) :
    IR.DataAtLeaves (t.replaceAt p u) := by
  induction p generalizing t with
  | nil => exact hu
  | cons s p ih =>
    have hchild : t.child s ≠ .nil := by
      intro hnil
      rw [subtreeAt_cons, hnil, subtreeAt_nil] at hp
      exact hp rfl
    rw [replaceAt_cons]
    exact h.setChild (ih (h.child s) hp) hchild

end IR.DataAtLeaves

theorem dataAtLeaves_emptyIR : IR.DataAtLeaves emptyIR := ⟨fun _ => ⟨rfl,rfl⟩,trivial,trivial⟩

theorem Variant.ne_nil {lib : Entries} {cur v : IR} (h : Variant lib cur v) : cur ≠ .nil := by
  rintro rfl
  cases h with
  | child s hchild he => exact ne_nil_of_notUnknown hchild (child_nil s)
  | both hl hr he he' => exact ne_nil_of_notUnknown hl (child_nil .left)

theorem Variant.dataAtLeaves {lib : Entries} {cur v : IR} (h : Variant lib cur v)
    (hlib : ∀ T, ∀ e ∈ lib T, IR.DataAtLeaves e) (hcur : IR.DataAtLeaves cur) : IR.DataAtLeaves v := by
  have hoffered : ∀ {T e}, Offered lib T e → IR.DataAtLeaves e := by
    intro T e he
    rcases he with he | ⟨-,rfl⟩
    · exact hlib T e he
    · exact dataAtLeaves_emptyIR
  have hthere : ∀ {t : IR}, notUnknown t → deepCopy t ≠ .nil := by
    intro t ht hnil
    exact ne_nil_of_notUnknown ht (map_eq_nil.mp hnil)
  cases h with
  | swap hop hres hl hr =>
    have hmatch : ∀ {t u : IR}, t = .nil → sameInterface t u → deepCopy u = .nil := by
      intro t u ht hsame
      rw [type?_eq_none_iff.mp ((of_decide_eq_true hsame).symm.trans (by rw [ht]; rfl))]
      rfl
    refine ⟨fun hn => ?_,hcur.2.1.deepCopy,hcur.2.2.deepCopy⟩
    obtain ⟨hleft,hright⟩ := (hoffered hres).1 hn
    exact ⟨hmatch hleft hl,hmatch hright hr⟩
  | child s hchild he =>
    apply hcur.deepCopy.setChild (hoffered he).deepCopy
    rw [deepCopy, child_map]
    exact hthere hchild
  | both hl hr he he' =>
    rename_i e e'
    have hright : IR.DataAtLeaves (setChild .right (deepCopy e') (deepCopy cur)) := by
      apply hcur.deepCopy.setChild (hoffered he').deepCopy
      rw [deepCopy, child_map]
      exact hthere hr
    apply hright.setChild (hoffered he).deepCopy
    cases cur with
    | nil => cases hl
    | node n cl cr => exact hthere hl

theorem dataAtLeaves_mutateIRs {lib : Entries} {root m : IR} {r : Rand} (hlib : ∀ T, ∀ e ∈ lib T, IR.DataAtLeaves e)
    (hroot : IR.DataAtLeaves root) (h : m ∈ (mutateIRs lib root r).1) : IR.DataAtLeaves m := by
  obtain ⟨p,-,hp,-,r',v,hv,rfl⟩ := mem_mutateIRs h
  exact (hroot.replaceAt ((variant_mutateIR hv).dataAtLeaves hlib (hroot.subtreeAt p)) hp).deepCopy

theorem IR.holdsFixme_deepCopy {t : IR} {p : Path} : HoldsFixme (PolyGlot.deepCopy t) p ↔ HoldsFixme t p := by
  unfold HoldsFixme PolyGlot.deepCopy
  rw [subtreeAt_map]
  cases BinaryTree.subtreeAt t p with
  | nil => simp [BinaryTree.map]
  | node n l r => cases l <;> cases r <;> simp [BinaryTree.map, isFixme, IRNode.copied, IRNode.holdsString]

theorem IR.site_deepCopy {t : IR} {p : Path} : Site (PolyGlot.deepCopy t) p ↔ Site t p := by
  have htype : ∀ q, dataType? ((PolyGlot.deepCopy t).subtreeAt q) = dataType? (t.subtreeAt q) := by
    intro q
    rw [PolyGlot.deepCopy, subtreeAt_map]
    cases BinaryTree.subtreeAt t q <;> rfl
  simp only [Site, FixUnit, htype, holdsFixme_deepCopy]

theorem dataAtLeaves_congr {t t' : IR} (h : t.erase = t'.erase) (ht : IR.DataAtLeaves t) : IR.DataAtLeaves t' := by
  induction t generalizing t' with
  | nil => rw [erase_eq_nil.mp h.symm]; trivial
  | node n l r ihl ihr =>
    cases t' with
    | nil => trivial
    | node n' l' r' =>
      rw [erase_node, erase_node, BinaryTree.node.injEq] at h
      obtain ⟨hn,hl,hr⟩ := h
      refine ⟨fun hn' => ?_,ihl hl ht.2.1,ihr hr ht.2.2⟩
      have hdata : n.erase.containData = n'.erase.containData := by rw [hn]
      obtain ⟨hleft,hright⟩ := ht.1 (hdata.trans hn')
      rw [hleft] at hl
      rw [hright] at hr
      exact ⟨erase_eq_nil.mp hl.symm,erase_eq_nil.mp hr.symm⟩

/-- The entries of a library are pieces of programs. -/
theorem FromPrograms.dataAtLeaves {g : Garbage} {lib : Shelves} (h : FromPrograms g (fun _ => True) lib) :
    ∀ T, ∀ e ∈ lib.values T, IR.DataAtLeaves e := by
  intro T e he
  obtain ⟨u,hu,rfl⟩ := List.mem_map.mp he
  obtain ⟨t,id,ir,id',id'',p,-,htranslate,hvals⟩ := h T u hu
  rw [hvals]
  exact ((DataAtLeaves.ofTranslation htranslate).extractStructure id'').subtreeAt p

theorem applyFixes_success {weak : Bool} {st : CollectState} {ds : List FixDecision} {t t' : IR} {r r' : Rand}
    {e : ValidationError} (h : applyFixes weak st ds t r = .ok ((e,t'),r')) : e = .kSuccess := by
  induction ds generalizing t r with
  | nil =>
    cases h
    rfl
  | cons d ds ih =>
    rw [applyFixes] at h
    obtain ⟨fixed,r₁,happly,h⟩ := of_bind h
    obtain ⟨n,left,right,r₂,rand,text,_,_,rfl⟩ := applyFix_eq happly
    rw [if_pos rfl] at h
    exact ih h

/-- A validation that returns is a success. -/
theorem validate_success {cfg : Configuration} {before : TypeSystem} {root : IR} {r r' : Rand} {v : Validated}
    (h : validate cfg before root r = .ok (v,r')) : v.error = .kSuccess := by
  unfold validate at h
  obtain ⟨_,_,_,h⟩ := of_bind h
  obtain ⟨built,_,_,h⟩ := of_bind h
  obtain ⟨⟨e,t⟩,_,hfixes,h⟩ := of_bind h
  cases h
  exact applyFixes_success hfixes

/-- The text is that of the mutant with texts of the generator at its sites, and
with nothing else changed. -/
def FixedText (cfg : Configuration) (m : IR) (text : Str) : Prop :=
  ∃ before built root' sites, buildScopeTreeWithSymbolTable cfg before (markFixMe m) = .ok built ∧
    (∀ p, p ∈ sites ↔ IR.Site m p) ∧ TextsAt cfg.isWeakType built.2 sites built.1 root' ∧
    Filled cfg.isWeakType built.2 m root' ∧ text = root'.render

theorem fixedText_of_validate {cfg : Configuration} {before : TypeSystem} {m : IR} {r r' : Rand} {v : Validated}
    (hm : IR.DataAtLeaves m) (h : validate cfg before m r = .ok (v,r')) : FixedText cfg m v.root.render := by
  obtain ⟨built,hbuilt,-,hsites,htexts,hfilled⟩ := validate_filled hm h
  exact ⟨before,built,v.root,_,hbuilt,hsites,htexts,hfilled,rfl⟩

section
variable {cfg : Configuration} {parse : Str → Option ParseTree} {g : Garbage} {s s' : PolyGlotMutator}

theorem Saves.fixes {t : IR} (h : Saves cfg parse g s t false s') (hdata : IR.DataAtLeaves t) :
    ∃ text, FixedText cfg t text ∧ s'.saveTestCases = s.saveTestCases ++ [text] := by
  cases h with
  | @validated v r hvalidate => exact ⟨_,fixedText_of_validate hdata hvalidate,if_pos (validate_success hvalidate)⟩

theorem SavesAll.fix {ps : List Ptr} {ts : List IR} (h : SavesAll cfg parse g false s ps ts s') (hdata : ∀ t ∈ ts, IR.DataAtLeaves t) :
    ∃ texts, List.Forall₂ (FixedText cfg) ts texts ∧ s'.saveTestCases = s.saveTestCases ++ texts := by
  induction h with
  | nil => exact ⟨[],.nil,by simp⟩
  | cons _ h _ ih =>
    obtain ⟨hfirst,hrest⟩ := List.forall_mem_cons.mp hdata
    obtain ⟨text,htext,hsaved⟩ := h.fixes hfirst
    obtain ⟨texts,htexts,hsaved'⟩ := ih hrest
    exact ⟨text :: texts,.cons htext htexts,by rw [hsaved', hsaved, List.append_assoc, List.singleton_append]⟩

theorem Mutants.dataAtLeaves {lib : Shelves} {u : BinaryTree (ℕ × IRNode)} {m m' : Mutator} {irs : List Ptr}
    {ms : List (BinaryTree (ℕ × IRNode))} (h : Mutants g lib u m m' irs ms)
    (hlib : ∀ T, ∀ e ∈ lib.values T, IR.DataAtLeaves e) (hroot : IR.DataAtLeaves (vals u)) :
    ∀ t ∈ ms.map vals, IR.DataAtLeaves t := by
  intro t ht
  obtain ⟨w,hw,rfl⟩ := List.mem_map.mp ht
  have hmem : IR.erase (vals w) ∈ (mutateIRs lib.values (vals u) m.rand).1 := by
    rw [← h.mutated.vals]
    exact List.mem_map_of_mem hw
  exact dataAtLeaves_congr (erase_erase _) (dataAtLeaves_mutateIRs hlib hroot hmem)

/-- What one count of the semantic mode announces. -/
theorem mutate_fixes (h : LibraryRun g (fun _ => True) s.mutator) (hempty : s.saveTestCases = []) {text : Str} {n : ℕ}
    (hrun : mutate cfg false parse g text s = .ok (n,s')) : n = 0 ∧ s'.saveTestCases = [] ∨
      ∃ t root id' entries ms r, parse text = some t ∧
        translateNode g.scopeId t s.mutator.idCounter = .ok (some root,id') ∧
        (∀ T, List.Forall₂ (Leads s.mutator) (s.mutator.irLibrary T) (entries T)) ∧
        ms.map IR.erase = (mutateIRs entries root r).1 ∧ List.Forall₂ (FixedText cfg) ms s'.saveTestCases := by
  obtain ⟨lib,hinv,hfrom,-⟩ := h.inv
  cases mutate_counts h hinv hrun with
  | nothing => exact .inl ⟨rfl,hempty⟩
  | @mutants t u id' m m' irs ms _ hread ht htranslate hne hmutants hsmall hsaves =>
    have hdata := hmutants.dataAtLeaves hfrom.dataAtLeaves (DataAtLeaves.ofTranslation htranslate)
    obtain ⟨texts,htexts,hsaved⟩ := hsaves.fix hdata
    have hvals : (ms.map vals).map IR.erase = (mutateIRs lib.values (vals u) m.rand).1 := by
      rw [← hmutants.mutated.vals, List.map_map]
      rfl
    rw [hempty, List.nil_append] at hsaved
    exact .inr ⟨t,vals u,id',lib.values,ms.map vals,m.rand,ht,htranslate,hinv.leads,hvals,hsaved ▸ htexts⟩

theorem exists_of_forall₂ {α β : Type} {R : α → β → Prop} {l : List α} {l' : List β} (h : List.Forall₂ R l l') {b : β}
    (hb : b ∈ l') : ∃ a ∈ l, R a b := by
  induction h with
  | nil => cases hb
  | cons hr _ ih =>
    rcases List.mem_cons.mp hb with rfl | hb
    · exact ⟨_,List.mem_cons_self,hr⟩
    · obtain ⟨a,ha,har⟩ := ih hb
      exact ⟨a,List.mem_cons_of_mem _ ha,har⟩

/-- What one call of the host announces, in terms of the mutants of its input. -/
theorem aflCustomFuzzCount_fixes (h : LibraryRun g (fun _ => True) s.mutator) {buf : Str} {n : ℕ}
    (hcount : aflCustomFuzzCount cfg false parse g buf s = .ok (n,s')) : n = 0 ∧ s'.saveTestCases = [] ∨
      ∃ t root id' entries ms r, parse (cStr buf) = some t ∧
        translateNode g.scopeId t s.mutator.idCounter = .ok (some root,id') ∧
        (∀ T, List.Forall₂ (Leads s.mutator) (s.mutator.irLibrary T) (entries T)) ∧
        ms.map IR.erase = (mutateIRs entries root r).1 ∧ (∀ m ∈ ms, IsMutant entries root m ∧ KeepsDefinitions root m) ∧
        List.Forall₂ (FixedText cfg) ms s'.saveTestCases := by
  obtain ⟨hnil,hmutate⟩ := of_fuzzCount hcount
  rcases mutate_fixes h hnil hmutate with hzero | ⟨t,root,id',entries,ms,r,ht,hnode,hleads,hms,htexts⟩
  · exact .inl hzero
  · refine .inr ⟨t,root,id',entries,ms,r,ht,hnode,hleads,hms,fun m hm => ?_,htexts⟩
    have hmem : m.erase ∈ (mutateIRs entries root r).1 := by
      rw [← hms]
      exact List.mem_map_of_mem hm
    obtain ⟨p,hpne,-,hshould,r',v,hv,heq⟩ := mem_mutateIRs hmem
    have hsame : SameUpToIds m (root.replaceAt p v) := by
      rw [SameUpToIds, ← deepCopy_erase, heq, deepCopy_deepCopy]
    exact ⟨⟨p,v,hpne,hshould,variant_mutateIR hv,hsame⟩,keepsDefinitions_of_graft hshould hsame⟩

/-- In every campaign of the semantic mode the texts of a count are those of the
mutants of its input, one for each and in their order, each with texts of the
generator at its sites. -/
theorem fuzzCount_fixesMutants {calls : List Callback} {es : List (Handout.Event Str)} {left : ℕ}
    (h : LibraryRun g (fun _ => True) s.mutator) (hempty : s.saveTestCases = []) {buf : Str}
    (hc : Campaign cfg false parse g s (.fuzzCount buf :: calls) es left s') (hleft : left ≠ 0) :
    ∃ es₀ left₀ s₀ t root id' entries ms r, Campaign cfg false parse g s calls es₀ left₀ s₀ ∧ parse (cStr buf) = some t ∧
      translateNode g.scopeId t s₀.mutator.idCounter = .ok (some root,id') ∧
      (∀ T, List.Forall₂ (Leads s₀.mutator) (s₀.mutator.irLibrary T) (entries T)) ∧
      ms.map IR.erase = (mutateIRs entries root r).1 ∧ (∀ m ∈ ms, IsMutant entries root m ∧ KeepsDefinitions root m) ∧
      List.Forall₂ (FixedText cfg) ms s'.saveTestCases := by
  cases hc with
  | callback hc hlast =>
    obtain ⟨hrun,-⟩ := hc.state h hempty
    cases hlast with
    | fuzzCount hcount =>
      rcases aflCustomFuzzCount_fixes hrun hcount with ⟨hzero,-⟩ | ⟨t,root,id',entries,ms,r,hmutants⟩
      · exact absurd hzero hleft
      · exact ⟨_,_,_,t,root,id',entries,ms,r,hc,hmutants⟩

def unitInput : ParseTree :=
  .rule ⟨0,false,false,false,.kDataDefault,.kScopeGlobal⟩
    [.rule ⟨1,false,false,false,.kVariableDefinition,.kScopeDefault⟩
      [leafRule .kVariableType "INT".toList,leafRule .kVariableName ['x'],.terminal [';']],
     .rule ⟨3,false,false,false,.kDataDefault,.kScopeDefault⟩
      [.terminal ['('],.rule ⟨4,false,false,false,.kDataDefault,.kScopeDefault⟩ [.terminal ['y']],.terminal [')']],
     leafRule .kFixUnit FIXMETAG]

def parseUnit (text : Str) : Option ParseTree := if text = "INT x; (y) FIXME".toList then some unitInput else none

theorem unitInput_counted : ∃ s,
    aflCustomFuzzCount (intConfig true) false parseUnit zeroed "INT x; (y) FIXME".toList fresh = .ok (1,s) ∧
      s.saveTestCases = ["INT x ;\n ( ) 0 ".toList] := by
  have hcount : (aflCustomFuzzCount (intConfig true) false parseUnit zeroed "INT x; (y) FIXME".toList fresh).map
      (fun r => (r.1,r.2.saveTestCases)) = .ok (1,["INT x ;\n ( ) 0 ".toList]) := by
    decide +kernel
  cases hrun : aflCustomFuzzCount (intConfig true) false parseUnit zeroed "INT x; (y) FIXME".toList fresh with
  | error f =>
    rw [hrun] at hcount
    cases hcount
  | ok r =>
    rw [hrun] at hcount
    obtain ⟨hone,htexts⟩ := Prod.mk.inj (Except.ok.inj hcount)
    exact ⟨r.2,by rw [← hone],htexts⟩

/-- Each mutant keeps the unit. -/
theorem unitInput_site {t : ParseTree} {root m : IR} {id' : StatementID} {entries : Entries}
    (ht : parseUnit (cStr "INT x; (y) FIXME".toList) = some t)
    (hnode : translateNode zeroed.scopeId t 0 = .ok (some root,id')) (hm : IsMutant entries root m) :
    IR.Site m [.right] := by
  have hinput : parseUnit (cStr "INT x; (y) FIXME".toList) = some unitInput := by rfl
  have htree : (translateNode zeroed.scopeId unitInput 0).map (fun r => r.1.map fun t => (mutablePlaces t,t.child .right)) =
      .ok (some ([[.left,.right]],.node ⟨2,none,.string FIXMETAG,.kFixUnit,.kScopeDefault,0,5⟩ .nil .nil)) := by
    decide +kernel
  rw [hinput] at ht
  cases ht
  rw [hnode] at htree
  obtain ⟨hplaces,hunit⟩ := Prod.mk.inj (Option.some.inj (Except.ok.inj htree))
  obtain ⟨p,v,hpne,hshould,hvariant,hsame⟩ := hm
  have hp : p ∈ mutablePlaces root := by
    rw [mutablePlaces, List.mem_filter, mem_postorder]
    exact ⟨hvariant.ne_nil,by simp [hpne, hshould]⟩
  rw [hplaces, List.mem_singleton] at hp
  have hright : (root.replaceAt p v).subtreeAt [.right] = root.child .right := by
    rw [hp]
    cases root <;> rfl
  rw [← IR.site_deepCopy, hsame, IR.site_deepCopy]
  refine .inl ⟨⟨by simp,?_,[.right],List.prefix_refl _,?_⟩,?_⟩
  · rw [hright, hunit]
    rfl
  · exact ⟨_,hright.trans hunit,rfl⟩
  · intro q hq hne hfix
    rcases List.prefix_cons_iff.mp hq with rfl | ⟨q,rfl,hnil⟩
    · exact hfix.1 rfl
    · exact hne (by rw [List.prefix_nil.mp hnil])

theorem unitInput_fixedMutants : ∃ es s', Campaign (intConfig true) false parseUnit zeroed fresh
    [.fuzzCount "INT x; (y) FIXME".toList] es 1 s' ∧ s'.saveTestCases = ["INT x ;\n ( ) 0 ".toList] ∧
      ∃ ms, List.Forall₂ (FixedText (intConfig true)) ms s'.saveTestCases ∧ ∀ m ∈ ms, IR.Site m [.right] := by
  obtain ⟨s',hcount,hsaved⟩ := unitInput_counted
  have hc : Campaign (intConfig true) false parseUnit zeroed fresh [.fuzzCount "INT x; (y) FIXME".toList] _ 1 s' :=
    .callback .start (.fuzzCount hcount)
  obtain ⟨_,_,s₀,t,root,_,_,ms,_,hc₀,ht,hnode,_,_,hmutants,htexts⟩ :=
    fuzzCount_fixesMutants (Mutator.start_run ..) rfl hc Nat.one_ne_zero
  cases hc₀
  exact ⟨_,s',hc,hsaved,ms,htexts,fun m hm => unitInput_site ht hnode (hmutants m hm).1⟩

/-- In every campaign of the semantic mode a text that is handed out goes back to
the last count: it is the fixed text of a mutant of that count's input, made with
the library as it was then. -/
theorem handedOut_isFixed {calls : List Callback} {es : List (Handout.Event Str)} {left : ℕ}
    (h : LibraryRun g (fun _ => True) s.mutator) (hempty : s.saveTestCases = []) {text : Str}
    (hc : Campaign cfg false parse g s (.fuzz :: calls) (.hand text :: es) left s') :
    ∃ newer buf older es₀ left₀ s₀ t root id' entries m, calls = newer ++ .fuzzCount buf :: older ∧
      (∀ b, .fuzzCount b ∉ newer) ∧ Campaign cfg false parse g s older es₀ left₀ s₀ ∧ parse (cStr buf) = some t ∧
      translateNode g.scopeId t s₀.mutator.idCounter = .ok (some root,id') ∧
      (∀ T, List.Forall₂ (Leads s₀.mutator) (s₀.mutator.irLibrary T) (entries T)) ∧
      IsMutant entries root m ∧ KeepsDefinitions root m ∧ FixedText cfg m text := by
  cases hc with
  | callback hc hlast =>
    cases hlast with
    | fuzz hfuzz =>
      obtain ⟨newer,buf,older,es₀,left₀,s₀,n,s₁,rfl,hnewer,hc₀,hcount,htext⟩ := hc.sourced hempty _ (of_fuzz hfuzz).1
      obtain ⟨hrun₀,-⟩ := hc₀.state h hempty
      rcases aflCustomFuzzCount_fixes hrun₀ hcount with ⟨-,hnil⟩ | ⟨t,root,id',entries,ms,r,ht,hnode,hleads,-,hms,htexts⟩
      · rw [hnil] at htext
        cases htext
      · obtain ⟨m,hm,hfixed⟩ := exists_of_forall₂ htexts htext
        exact ⟨newer,buf,older,es₀,left₀,s₀,t,root,id',entries,m,rfl,hnewer,hc₀,ht,hnode,hleads,(hms m hm).1,(hms m hm).2,
          hfixed⟩

theorem unitInput_handedOutFixed : ∃ text es left s', Campaign (intConfig true) false parseUnit zeroed fresh
    [.fuzz,.fuzzCount "INT x; (y) FIXME".toList] (.hand text :: es) left s' ∧
      ∃ m, FixedText (intConfig true) m text ∧ IR.Site m [.right] := by
  obtain ⟨s₁,hcount,-⟩ := unitInput_counted
  have hbetween : Between zeroed _ 1 s₁ := (aflCustomFuzzCount_decides _ fresh_between).of_run hcount
  obtain ⟨text,s₂,hfuzz,-⟩ := aflCustomFuzz_meets hbetween Nat.one_pos
  have hc : Campaign (intConfig true) false parseUnit zeroed fresh [.fuzz,.fuzzCount "INT x; (y) FIXME".toList] _ 0 s₂ :=
    .callback (.callback .start (.fuzzCount hcount)) (.fuzz hfuzz)
  obtain ⟨newer,buf,older,_,_,s₀,t,root,_,_,m,hcalls,_,hc₀,ht,hnode,_,hm,_,hfixed⟩ :=
    handedOut_isFixed (Mutator.start_run ..) rfl hc
  have hlast : buf = "INT x; (y) FIXME".toList ∧ older = [] := by
    rcases newer with _ | ⟨c,newer⟩
    · simpa [eq_comm] using hcalls
    · simp at hcalls
  obtain ⟨rfl,rfl⟩ := hlast
  cases hc₀
  exact ⟨text,_,_,s₂,hc,m,hfixed,unitInput_site ht hnode hm⟩

end

end PolyGlot
