import PolyGlot.Antlr.Totality
import PolyGlot.Fuzzer.Machine

set_option autoImplicit false

/-! # Where test cases come from

A text that the syntax-only mode hands out is the rendering of a mutant of the
input of the last count, made with the library of that moment. How many texts a
count announces is bounded by the nodes of the input, and only the host can stop
a campaign whose parser gives trees that translate.
-/
namespace PolyGlot

open BinaryTree TreeHeap Prog KeyedList

def readable (parse : Str → Option ParseTree) (text : Str) : Bool :=
  match parse text with
  | none => false
  | some t =>
    match translation t with
    | .ok (some _) => true
    | _ => false

def fits (parse : Str → Option ParseTree) (t : IR) : Bool := t.getChildNum ≤ 1500 && readable parse t.render

def announced (parse : Str → Option ParseTree) (lib : Entries) (root : IR) (r : Rand) : List Str :=
  (((mutateIRs lib root r).1).filter (fits parse)).map IR.render

section
variable {parse : Str → Option ParseTree} {f f' : Machine}

theorem readText_run (text : Str) : (∃ e, readText parse text f = .error e) ∨
    ∃ ir, readText parse text f = .ok (ir,f) ∧ readable parse text = ir.isSome ∧
      ∀ root, ir = some root → ∃ t, parse text = some t ∧ translation t = .ok (some root) := by
  unfold readText readable
  cases parse text with
  | none => exact .inr ⟨none,rfl,rfl,fun _ h => by cases h⟩
  | some t =>
    cases h : translation t with
    | error e => exact .inl ⟨e,by simp only [h]; rfl⟩
    | ok ir =>
      refine .inr ⟨ir,by simp only [h]; rfl,by cases ir <;> simp only [h] <;> rfl,?_⟩
      rintro root rfl
      exact ⟨t,rfl,h⟩

theorem readText_attains (text : Str) : Attains (readText parse text) f fun ir f' => f' = f ∧
    readable parse text = ir.isSome ∧ ∀ root, ir = some root → ∃ t, parse text = some t ∧ translation t = .ok (some root) := by
  constructor
  intro ir f' hrun
  rcases @readText_run parse f text with ⟨e,he⟩ | ⟨ir',hok,hrest⟩
  · rw [he] at hrun
    cases hrun
  · rw [hok] at hrun
    cases hrun
    exact ⟨rfl,hrest⟩

theorem offerMutant_attains (t : IR) : Attains (offerMutant parse t) f fun _ f' =>
    f' = { f with testCases := f.testCases ++ ([t].filter (fits parse)).map IR.render } := by
  by_cases hsmall : t.getChildNum ≤ 1500
  · rw [offerMutant, onlyIf, if_pos hsmall]
    apply (readText_attains t.render).bind
    rintro ir _ ⟨rfl,hreadable,-⟩
    have hfits : fits parse t = ir.isSome := by rw [fits, hreadable, decide_eq_true hsmall, Bool.true_and]
    apply Attains.onlyIf
    · intro hsome
      refine (Meets.modify ?_).attains
      rw [List.filter_singleton, hfits, hsome]
      rfl
    · intro hnone
      rw [List.filter_singleton, hfits, Bool.eq_false_of_not_eq_true hnone]
      simp
  · rw [offerMutant, onlyIf, if_neg hsmall]
    apply Attains.pure
    have hfits : fits parse t = false := by rw [fits, decide_eq_false hsmall, Bool.false_and]
    rw [List.filter_singleton, hfits]
    simp

theorem offerMutants_attains (ts : List IR) : Attains (offerMutants parse ts) f fun _ f' =>
    f' = { f with testCases := f.testCases ++ (ts.filter (fits parse)).map IR.render } := by
  induction ts generalizing f with
  | nil => exact Attains.pure (by simp)
  | cons t ts ih =>
    apply (offerMutant_attains t).bind
    rintro _ _ rfl
    apply ih.mono
    rintro _ _ rfl
    rw [List.append_assoc, ← List.map_append, ← List.filter_append, List.singleton_append]

theorem mutateTree_attains (ir : Option IR) (hempty : f.testCases = []) : Attains (mutateTree parse ir) f fun _ f' =>
    f'.library = f.library ∧ (f'.testCases = [] ∨
      ∃ root, ir = some root ∧ root.getChildNum ≤ 1500 ∧ f'.testCases = announced parse f.library root f.rand) := by
  cases ir with
  | none => exact Attains.pure ⟨rfl,.inl hempty⟩
  | some root =>
    rw [mutateTree]
    by_cases hlarge : root.getChildNum > 1500
    · rw [if_pos hlarge]
      exact Attains.pure ⟨rfl,.inl hempty⟩
    · rw [if_neg hlarge]
      apply Attains.get_bind
      have hset : Attains (set { f with rand := (mutateIRs f.library root f.rand).2 } : OnValues Unit) f fun _ f' =>
          f' = { f with rand := (mutateIRs f.library root f.rand).2 } := by
        constructor
        intro _ _ hrun
        cases hrun
        rfl
      apply hset.bind
      rintro _ _ rfl
      apply (offerMutants_attains _).mono
      rintro _ _ rfl
      refine ⟨rfl,.inr ⟨root,rfl,not_lt.mp hlarge,?_⟩⟩
      simp only [hempty, List.nil_append]
      rfl

/-- A count announces the renderings of the mutants that fit. -/
theorem refillTexts_attains (text : Str) : Attains (refillTexts parse text) f fun texts f' =>
    f'.library = f.library ∧ f'.testCases = texts ∧ (texts = [] ∨ ∃ t root, parse text = some t ∧
      translation t = .ok (some root) ∧ root.getChildNum ≤ 1500 ∧ texts = announced parse f.library root f.rand) := by
  apply Attains.get_bind
  apply Attains.assertThat.bind
  rintro _ f ⟨hempty,rfl⟩
  apply (readText_attains text).bind
  rintro ir _ ⟨rfl,-,htree⟩
  apply (mutateTree_attains ir hempty).bind
  rintro _ f' ⟨hlibrary,hcases⟩
  refine ⟨fun texts f'' hrun => ?_⟩
  cases hrun
  refine ⟨hlibrary,rfl,hcases.imp id ?_⟩
  rintro ⟨root,hroot,hsmall,htexts⟩
  obtain ⟨t,ht,htranslate⟩ := htree root hroot
  exact ⟨t,root,ht,htranslate,hsmall,htexts⟩

end

section
variable {cfg : Configuration} {syntaxOnly : Bool} {parse : Str → Option ParseTree} {g : Garbage} {s s' : PolyGlotMutator}
  {calls : List Callback} {es : List (Handout.Event Str)} {left : ℕ}

theorem of_fuzzCount {buf : Str} {n : ℕ} (hrun : aflCustomFuzzCount cfg syntaxOnly parse g buf s = .ok (n,s')) :
    s.saveTestCases = [] ∧ mutate cfg syntaxOnly parse g (cStr buf) s = .ok (n,s') := by
  rw [aflCustomFuzzCount, run_get_bind] at hrun
  obtain ⟨_,t,hassert,hmutate⟩ := of_bind hrun
  obtain ⟨hnil,rfl⟩ := Attains.assertThat.of_run _ _ hassert
  exact ⟨hnil,hmutate⟩

/-- The last of the test cases is taken. -/
theorem of_fuzz {text : Str} (hrun : aflCustomFuzz s = .ok (text,s')) : text ∈ s.saveTestCases ∧
    s'.mutator = s.mutator ∧ s'.saveTestCases = s.saveTestCases.dropLast := by
  rw [aflCustomFuzz, getNextMutatedTestCase, run_get_bind] at hrun
  obtain ⟨_,t,hassert,hset⟩ := of_bind hrun
  obtain ⟨hne,rfl⟩ := Attains.assertThat.of_run _ _ hassert
  cases hset
  refine ⟨?_,rfl,rfl⟩
  rw [List.getLastD_eq_getLast?, List.getLast?_eq_some_getLast hne, Option.getD_some]
  exact List.getLast_mem hne

/-- A campaign leaves a library of additions, and counts the texts left. -/
theorem Campaign.state (h : LibraryRun g (fun _ => True) s.mutator) (hempty : s.saveTestCases = [])
    (hc : Campaign cfg syntaxOnly parse g s calls es left s') :
    LibraryRun g (fun _ => True) s'.mutator ∧ left = s'.saveTestCases.length := by
  induction hc with
  | start => exact ⟨h,by rw [hempty]; rfl⟩
  | callback hc hlast ih =>
    obtain ⟨hrun,hleft⟩ := ih
    cases hlast with
    | queueNewEntry hqueue =>
      obtain ⟨m,hadd,rfl⟩ := of_onMutator hqueue
      exact ⟨((addTextToIRLibrary_decides _ hrun).of_run hadd).run hrun,hleft⟩
    | fuzzCount hcount =>
      obtain ⟨hnil,hmutate⟩ := of_fuzzCount hcount
      obtain ⟨hmoved,hn⟩ := (mutate_decides _ hrun hnil).of_run hmutate
      exact ⟨hmoved.run hrun,hn⟩
    | fuzz hfuzz =>
      obtain ⟨-,hsame,hlist⟩ := of_fuzz hfuzz
      rw [hsame, hlist, List.length_dropLast, hleft]
      exact ⟨hrun,rfl⟩

def Sourced (cfg : Configuration) (syntaxOnly : Bool) (parse : Str → Option ParseTree) (g : Garbage) (s : PolyGlotMutator)
    (calls : List Callback) (text : Str) : Prop :=
  ∃ newer buf older es left s₀ n s₁, calls = newer ++ .fuzzCount buf :: older ∧ (∀ b, .fuzzCount b ∉ newer) ∧
    Campaign cfg syntaxOnly parse g s older es left s₀ ∧
    aflCustomFuzzCount cfg syntaxOnly parse g buf s₀ = .ok (n,s₁) ∧ text ∈ s₁.saveTestCases

theorem Sourced.later {text : Str} (h : Sourced cfg syntaxOnly parse g s calls text) {c : Callback}
    (hc : ∀ b, c ≠ .fuzzCount b) : Sourced cfg syntaxOnly parse g s (c :: calls) text := by
  obtain ⟨newer,buf,older,es,left,s₀,n,s₁,rfl,hnewer,hrest⟩ := h
  refine ⟨c :: newer,buf,older,es,left,s₀,n,s₁,rfl,fun b hb => ?_,hrest⟩
  rcases List.mem_cons.mp hb with hb | hb
  · exact hc b hb.symm
  · exact hnewer b hb

/-- In every campaign the texts not yet taken come from the last count. -/
theorem Campaign.sourced (hempty : s.saveTestCases = []) (hc : Campaign cfg syntaxOnly parse g s calls es left s') :
    ∀ text ∈ s'.saveTestCases, Sourced cfg syntaxOnly parse g s calls text := by
  induction hc with
  | start => simp [hempty]
  | callback hc hlast ih =>
    intro text htext
    cases hlast with
    | queueNewEntry hqueue =>
      obtain ⟨m,-,rfl⟩ := of_onMutator hqueue
      exact (ih text htext).later fun _ h => by cases h
    | fuzzCount hcount => exact ⟨[],_,_,_,_,_,_,_,rfl,by simp,hc,hcount,htext⟩
    | fuzz hfuzz =>
      rw [(of_fuzz hfuzz).2.2] at htext
      exact (ih text (List.mem_of_mem_dropLast htext)).later fun _ h => by cases h

end

/-- One subtree below the root that may be mutated is replaced by a variant of it. -/
def IsMutant (lib : Entries) (root m : IR) : Prop :=
  ∃ p v, p ≠ [] ∧ shouldMutate (root.subtreeAt p) ∧ Variant lib (root.subtreeAt p) v ∧ SameUpToIds m (root.replaceAt p v)

/-- What a text is of the tree it was made from: the rendering of a mutant of at
most 1500 nodes that keeps every definition, and it can be read again. -/
def IsTestCase (parse : Str → Option ParseTree) (lib : Entries) (root : IR) (text : Str) : Prop :=
  ∃ m, IsMutant lib root m ∧ KeepsDefinitions root m ∧ m.getChildNum ≤ 1500 ∧ text = m.render ∧ readable parse text

theorem isTestCase_of_announced {parse : Str → Option ParseTree} {lib : Entries} {root : IR} {r : Rand} {text : Str}
    (h : text ∈ announced parse lib root r) : IsTestCase parse lib root text := by
  obtain ⟨m,hm,rfl⟩ := List.mem_map.mp h
  obtain ⟨hm,hfits⟩ := List.mem_filter.mp hm
  rw [fits, Bool.and_eq_true, decide_eq_true_iff] at hfits
  obtain ⟨p,hpne,-,hshould,r',v,hv,rfl⟩ := mem_mutateIRs hm
  have hsame : SameUpToIds (deepCopy (root.replaceAt p v)) (root.replaceAt p v) := deepCopy_deepCopy _
  exact ⟨_,⟨p,v,hpne,hshould,variant_mutateIR hv,hsame⟩,keepsDefinitions_of_graft hshould hsame,hfits.1,rfl,hfits.2⟩

section
variable {cfg : Configuration} {parse : Str → Option ParseTree} {g : Garbage} {s s' : PolyGlotMutator}
  {calls : List Callback} {es : List (Handout.Event Str)} {left : ℕ}

/-- What one count announces. -/
theorem fuzzCount_isTestCase (h : LibraryRun g (fun _ => True) s.mutator) {buf : Str} {n : ℕ}
    (hcount : aflCustomFuzzCount cfg true parse g buf s = .ok (n,s')) {text : Str} (htext : text ∈ s'.saveTestCases) :
    ∃ t root id' entries, parse (cStr buf) = some t ∧ translateNode g.scopeId t s.mutator.idCounter = .ok (some root,id') ∧
      (∀ T, List.Forall₂ (Leads s.mutator) (s.mutator.irLibrary T) (entries T)) ∧
      root.getChildNum ≤ 1500 ∧ IsTestCase parse entries root text := by
  obtain ⟨f,hf⟩ := exists_fuzzes h
  have hlast : Performs cfg true parse g 0 s (.fuzzCount buf) _ n s' := .fuzzCount hcount
  obtain ⟨f',hperform,hf'⟩ := (performs_simulates hf).1 _ _ _ hlast
  obtain ⟨texts,f₁,hrefill,heq⟩ := of_bind hperform
  cases heq
  obtain ⟨-,-,hcases⟩ := (refillTexts_attains (cStr buf)).of_run _ _ hrefill
  rcases hcases with hnil | ⟨t,root,ht,htranslate,hsmall,hannounced⟩
  · rw [hnil] at htext
    cases htext
  obtain ⟨lib,hinv,-,-⟩ := h.inv
  rcases translateNode_cases (g := g) t s.mutator.idCounter with ⟨e,-,htree⟩ | ⟨_ | root₀,id',hnode,htree⟩
  · rw [htranslate] at htree
    cases htree
  · rw [htranslate] at htree
    cases htree
  · rw [htranslate] at htree
    obtain rfl : root = root₀.erase := Option.some.inj (Except.ok.inj htree)
    rw [hannounced, announced, ← hf.stores.library lib hinv,
      ← mutateIRs_erase lib.sameEntries (erase_erase root₀).symm] at htext
    have hsize : root₀.getChildNum = root₀.erase.getChildNum := by
      rw [IR.getChildNum_eq, IR.getChildNum_eq, IR.erase, values_map, List.length_map]
    exact ⟨t,root₀,id',lib.values,ht,hnode,hinv.leads,hsize ▸ hsmall,isTestCase_of_announced htext⟩

/-- In every campaign a text that is handed out goes back to the last count: it
is a test case of that count's input, made with the library as it was then. -/
theorem handedOut_isTestCase (h : LibraryRun g (fun _ => True) s.mutator) (hempty : s.saveTestCases = []) {text : Str}
    (hc : Campaign cfg true parse g s (.fuzz :: calls) (.hand text :: es) left s') :
    ∃ newer buf older es₀ left₀ s₀ t root id' entries, calls = newer ++ .fuzzCount buf :: older ∧
      (∀ b, .fuzzCount b ∉ newer) ∧ Campaign cfg true parse g s older es₀ left₀ s₀ ∧ parse (cStr buf) = some t ∧
      translateNode g.scopeId t s₀.mutator.idCounter = .ok (some root,id') ∧
      (∀ T, List.Forall₂ (Leads s₀.mutator) (s₀.mutator.irLibrary T) (entries T)) ∧
      root.getChildNum ≤ 1500 ∧ IsTestCase parse entries root text := by
  cases hc with
  | callback hc hlast =>
    cases hlast with
    | fuzz hfuzz =>
      obtain ⟨newer,buf,older,es₀,left₀,s₀,n,s₁,rfl,hnewer,hc₀,hcount,htext⟩ := hc.sourced hempty _ (of_fuzz hfuzz).1
      obtain ⟨hrun₀,-⟩ := hc₀.state h hempty
      obtain ⟨t,root,id',entries,ht,htranslate,hentries,hsmall,htest⟩ := fuzzCount_isTestCase hrun₀ hcount htext
      exact ⟨newer,buf,older,es₀,left₀,s₀,t,root,id',entries,rfl,hnewer,hc₀,ht,htranslate,hentries,hsmall,htest⟩

end

def parseWords (text : Str) : Option ParseTree :=
  if text = "(x)".toList then some parenProgram else some (wordProgram text)

def firstTaken (calls : List Callback) : Except Fault (Option Str) :=
  (performAll parseWords calls ⟨fun _ => [],Stream'.const 0,[]⟩).map fun r =>
    match r.1 with
    | .hand text :: _ => some text
    | _ => none

theorem parens_handedOut : ∃ es left s', Campaign (intConfig true) true parseWords zeroed fresh
    [.fuzz,.fuzzCount "(x)".toList] (.hand "( ) ".toList :: es) left s' ∧
      ∃ entries root, IsTestCase parseWords entries root "( ) ".toList := by
  have htaken : firstTaken [.fuzz,.fuzzCount "(x)".toList] = .ok (some "( ) ".toList) := by decide +kernel
  unfold firstTaken at htaken
  cases hrun : performAll parseWords [.fuzz,.fuzzCount "(x)".toList] ⟨fun _ => [],Stream'.const 0,[]⟩ with
  | error e =>
    rw [hrun] at htaken
    cases htaken
  | ok r =>
    obtain ⟨es,f'⟩ := r
    rw [hrun] at htaken
    have hfirst := Except.ok.inj htaken
    match es, hfirst with
    | .hand text :: es, hfirst =>
      cases hfirst
      obtain ⟨left,s',hc,-⟩ := (campaign_simulates fresh_fuzzes _ _).2 f' hrun
      obtain ⟨_,_,_,_,_,_,_,root,_,entries,_,_,_,_,_,_,_,htest⟩ := handedOut_isTestCase (Mutator.start_run ..) rfl hc
      exact ⟨es,left,s',hc,entries,root,htest⟩

def mutablePlaces (root : IR) : List Path := root.postorder.filter fun p => p ≠ [] ∧ shouldMutate (root.subtreeAt p)

theorem length_mutateIR_le (lib : Entries) (cur : IR) (r : Rand) : (mutateIR lib cur r).1.length ≤ kConstraintReplaceTimes + 1 := by
  have hoption : ∀ v : Option IR, v.toList.length ≤ 1 := by
    intro v
    cases v <;> simp
  have hloop : ∀ k r, (constrainedVariants lib cur k r).1.length ≤ k := by
    intro k
    induction k with
    | zero => exact fun r => le_rfl
    | succ k ih =>
      intro r
      rw [constrainedVariants, List.length_append]
      have hone := hoption (strategyReplaceWithConstraint lib cur r).1
      have hrest := ih (strategyReplaceWithConstraint lib cur r).2
      omega
  rw [mutateIR, List.length_append]
  exact Nat.add_le_add (hloop _ _) (hoption _)

theorem length_builtTrees_le (lib : Entries) (root : IR) (ps : List Path) (r : Rand) :
    (builtTrees lib root ps r).length ≤
      (kConstraintReplaceTimes + 1) * (ps.filter fun p => p ≠ [] ∧ shouldMutate (root.subtreeAt p)).length := by
  induction ps generalizing r with
  | nil => exact le_rfl
  | cons p ps ih =>
    rw [builtTrees]
    split
    · rename_i hskip
      have hout : ¬ (p ≠ [] ∧ shouldMutate (root.subtreeAt p) = true) := by
        rintro ⟨hpne,hshould⟩
        rcases hskip with hnil | hfalse
        · exact hpne hnil
        · rw [hshould] at hfalse
          cases hfalse
      rw [List.filter_cons_of_neg (by simpa using hout)]
      exact ih r
    · rename_i hmutate
      obtain ⟨hpne,hshould⟩ := not_or.mp hmutate
      have hin : p ≠ [] ∧ shouldMutate (root.subtreeAt p) = true := ⟨hpne,by simpa using hshould⟩
      rw [List.filter_cons_of_pos (by simpa using hin), List.length_append, List.length_map, List.length_cons, Nat.mul_succ]
      have hone := length_mutateIR_le lib (root.subtreeAt p) r
      have hrest := ih (mutateIR lib (root.subtreeAt p) r).2
      omega

/-- A mutable place has at most seven mutants. -/
theorem length_mutateIRs_le (lib : Entries) (root : IR) (r : Rand) :
    (mutateIRs lib root r).1.length ≤ (kConstraintReplaceTimes + 1) * (mutablePlaces root).length := by
  rw [mutateIRs_eq, List.length_map]
  exact (keepFirst_sublist _ _).length_le.trans (length_builtTrees_le lib root root.postorder r)

theorem length_mutablePlaces_lt {root : IR} (h : root ≠ .nil) : (mutablePlaces root).length < root.getChildNum := by
  rw [IR.getChildNum_eq, ← length_postorder]
  apply List.length_filter_lt_length_iff_exists.mpr
  exact ⟨[],mem_postorder.mpr h,by simp⟩

section
variable {cfg : Configuration} {syntaxOnly : Bool} {parse : Str → Option ParseTree} {g : Garbage} {s s' : PolyGlotMutator}
  {calls : List Callback} {es : List (Handout.Event Str)} {left : ℕ}

/-- A mutant gives at most one test case. -/
theorem Saves.length_le {t : IR} (h : Saves cfg parse g s t syntaxOnly s') :
    s'.saveTestCases.length ≤ s.saveTestCases.length + 1 := by
  have hpush : ∀ {c : Prop} [Decidable c] {text : Str},
      (if c then s.saveTestCases ++ [text] else s.saveTestCases).length ≤ s.saveTestCases.length + 1 := by
    intro c _ text
    split
    · exact List.length_append.le
    · exact Nat.le_succ _
  cases h with
  | large => exact Nat.le_succ _
  | read => exact hpush
  | validated => exact hpush

theorem SavesAll.length_le {ps : List Ptr} {ts : List IR} (h : SavesAll cfg parse g syntaxOnly s ps ts s') :
    s'.saveTestCases.length ≤ s.saveTestCases.length + ts.length := by
  induction h with
  | nil => exact le_rfl
  | cons _ h _ ih =>
    have hone := h.length_le
    rw [List.length_cons]
    omega

def CountBound (parse : Str → Option ParseTree) (text : Str) (n : ℕ) : Prop :=
  n = 0 ∨ ∃ t root, parse text = some t ∧ translation t = .ok (some root) ∧ root.getChildNum ≤ 1500 ∧
    n ≤ 7 * (mutablePlaces root).length ∧ (mutablePlaces root).length < root.getChildNum

theorem mutate_le (h : LibraryRun g (fun _ => True) s.mutator) (hempty : s.saveTestCases = []) {text : Str} {n : ℕ}
    (hrun : mutate cfg syntaxOnly parse g text s = .ok (n,s')) : CountBound parse text n := by
  obtain ⟨lib,hinv,-,-⟩ := h.inv
  cases mutate_counts h hinv hrun with
  | nothing => exact .inl rfl
  | @mutants t u id' m m' irs ms _ hread ht htranslate hne hmutants hsmall hsaves =>
    have htranslation : translation t = .ok (some (IR.erase (vals u))) := by
      rcases translateNode_cases (g := g) t s.mutator.idCounter with ⟨e,he,-⟩ | ⟨r,id'',hr,htree⟩
      · rw [htranslate] at he
        cases he
      · rw [htranslate] at hr
        cases hr
        exact htree
    have hsize := hmutants.size
    rw [← getChildNum_erase] at hsize
    refine .inr ⟨t,_,ht,htranslation,hsize ▸ hsmall,?_,length_mutablePlaces_lt ?_⟩
    · have hlength := length_mutateIRs_le lib.erased (IR.erase (vals u)) m.rand
      rw [← mutateIRs_erase lib.sameEntries (erase_erase (vals u)).symm, ← hmutants.mutated.vals, List.length_map] at hlength
      have hpushed := hsaves.length_le
      rw [List.length_map, hempty, List.length_nil, Nat.zero_add] at hpushed
      exact hpushed.trans hlength
    · exact fun hnil => hne (vals_eq_nil.mp (erase_eq_nil.mp hnil))

/-- In either mode a count announces at most seven texts for each mutable place
of its input, and an input with more than 1500 nodes announces none. -/
theorem fuzzCount_le (h : LibraryRun g (fun _ => True) s.mutator) (hempty : s.saveTestCases = []) {buf : Str}
    (hc : Campaign cfg syntaxOnly parse g s (.fuzzCount buf :: calls) es left s') : CountBound parse (cStr buf) left := by
  cases hc with
  | callback hc hlast =>
    obtain ⟨hrun,-⟩ := hc.state h hempty
    cases hlast with
    | fuzzCount hcount =>
      obtain ⟨hnil,hmutate⟩ := of_fuzzCount hcount
      exact mutate_le hrun hnil hmutate

theorem parens_fuzzCount_le : ∃ es s', Campaign (intConfig true) false parseParens zeroed fresh
    [.fuzzCount "(x)".toList] es 1 s' ∧ CountBound parseParens (cStr "(x)".toList) 1 := by
  obtain ⟨s',hcount⟩ := parens_counted
  have hc : Campaign (intConfig true) false parseParens zeroed fresh [.fuzzCount "(x)".toList] _ 1 s' :=
    .callback .start (.fuzzCount hcount)
  exact ⟨_,s',hc,fuzzCount_le (Mutator.start_run ..) rfl hc⟩

end

/-- Every tree that the parser gives is one that the translator accepts. -/
def TreesTranslate (parse : Str → Option ParseTree) : Prop :=
  ∀ text t, parse text = some t → (∃ ctx cs, t = .rule ctx cs) ∧ t.IntsDecimal ∧ t.Survives

def HostMay (left : ℕ) : Callback → Prop
  | .queueNewEntry _ => True
  | .fuzzCount _ => left = 0
  | .fuzz => 0 < left

section
variable {parse : Str → Option ParseTree} {f : Machine}

theorem TreesTranslate.readText_meets (h : TreesTranslate parse) (text : Str) :
    Meets (readText parse text) f fun _ f' => f' = f := by
  unfold readText
  cases ht : parse text with
  | none => exact Meets.pure rfl
  | some t =>
    obtain ⟨⟨ctx,cs,rfl⟩,hints,hsurvives⟩ := h text t ht
    obtain ⟨p,hp⟩ : ∃ p, translateNode (fun _ => 0) (.rule ctx cs) 0 = .ok p := (translateNode_ok_iff hints 0).mpr hsurvives
    have htranslate : translation (.rule ctx cs) = .ok (p.1.map IR.erase) := by
      rw [translation, hp]
      rfl
    exact ⟨_,f,by simp only [htranslate]; rfl,rfl⟩

theorem TreesTranslate.offerMutants_meets (h : TreesTranslate parse) (ts : List IR) :
    Meets (offerMutants parse ts) f fun _ _ => True := by
  induction ts generalizing f with
  | nil => exact Meets.pure trivial
  | cons t ts ih =>
    have hone : Meets (offerMutant parse t) f fun _ _ => True := by
      apply Meets.onlyIf _ fun _ => trivial
      intro _
      apply (h.readText_meets t.render).bind
      intro ir f' _
      exact Meets.onlyIf (fun _ => Meets.modify trivial) fun _ => trivial
    exact hone.bind fun _ _ _ => ih

theorem TreesTranslate.mutateTree_meets (h : TreesTranslate parse) (ir : Option IR) :
    Meets (mutateTree parse ir) f fun _ _ => True := by
  cases ir with
  | none => exact Meets.pure trivial
  | some root =>
    rw [mutateTree]
    apply Meets.ite (fun _ => Meets.pure trivial)
    intro _
    exact h.offerMutants_meets _

theorem TreesTranslate.perform_returns_iff (h : TreesTranslate parse) (c : Callback) :
    (∃ e f', perform parse c f = .ok (e,f')) ↔ HostMay f.testCases.length c := by
  cases c with
  | queueNewEntry content =>
    refine iff_of_true ?_ trivial
    have henter : Meets (enterText parse (cStr content)) f fun _ _ => True := by
      apply (h.readText_meets (cStr content)).bind
      intro ir f' _
      cases ir with
      | none => exact Meets.pure trivial
      | some root => exact Meets.modify trivial
    obtain ⟨e,f',hrun,-⟩ := henter.bind fun _ f' _ => Meets.pure (Q := fun _ _ => True) (a := Handout.Event.other) trivial
    exact ⟨e,f',hrun⟩
  | fuzzCount buf =>
    rw [HostMay, List.length_eq_zero_iff]
    constructor
    · rintro ⟨e,f',hrun⟩
      obtain ⟨texts,f₁,hrefill,-⟩ := of_bind hrun
      rw [refillTexts, run_get_bind] at hrefill
      obtain ⟨_,_,hassert,-⟩ := of_bind hrefill
      exact (Attains.assertThat.of_run _ _ hassert).1
    · intro hempty
      have hrefill : Meets (refillTexts parse (cStr buf)) f fun _ _ => True := by
        refine (Meets.get (Q := fun f₁ f₂ => f₁ = f ∧ f₂ = f) ⟨rfl,rfl⟩).bind ?_
        rintro _ _ ⟨rfl,rfl⟩
        refine (Meets.assertThat (Q := fun _ _ => True) hempty trivial).bind fun _ f₁ _ => ?_
        refine (h.readText_meets (cStr buf)).bind fun ir f₂ _ => ?_
        exact (h.mutateTree_meets ir).bind fun _ f₃ _ => (Meets.get (Q := fun _ _ => True) trivial).bind
          fun _ _ _ => Meets.pure trivial
      obtain ⟨e,f',hrun,-⟩ := hrefill.bind fun texts f' _ => Meets.pure (Q := fun _ _ => True) (a := Handout.Event.refill texts) trivial
      exact ⟨e,f',hrun⟩
  | fuzz =>
    rw [HostMay, List.length_pos_iff]
    constructor
    · rintro ⟨e,f',hrun⟩
      obtain ⟨text,f₁,htake,-⟩ := of_bind hrun
      rw [takeText, run_get_bind] at htake
      obtain ⟨_,_,hassert,-⟩ := of_bind htake
      exact (Attains.assertThat.of_run _ _ hassert).1
    · intro hne
      exact ⟨_,_,by rw [perform, takeText, run_bind, run_get_bind, assertThat, if_pos hne]; rfl⟩

end

/-- Where every tree that the parser gives translates, only the host can stop a
campaign of the syntax-only mode: from every state that a campaign reaches, the
callbacks that return are those that the host may make. -/
theorem callback_returns_iff {cfg : Configuration} {parse : Str → Option ParseTree} {g : Garbage} {s s' : PolyGlotMutator}
    {calls : List Callback} {es : List (Handout.Event Str)} {left : ℕ} (hparse : TreesTranslate parse)
    (h : LibraryRun g (fun _ => True) s.mutator) (hempty : s.saveTestCases = [])
    (hc : Campaign cfg true parse g s calls es left s') (c : Callback) :
    (∃ e left' s'', Performs cfg true parse g left s' c e left' s'') ↔ HostMay left c := by
  obtain ⟨hrun,hleft⟩ := hc.state h hempty
  obtain ⟨f,hf⟩ := exists_fuzzes hrun
  rw [hleft, hf.testCases, ← hparse.perform_returns_iff c]
  constructor
  · rintro ⟨e,left',s'',hlast⟩
    obtain ⟨f',hperform,-⟩ := (performs_simulates hf).1 e left' s'' hlast
    exact ⟨e,f',hperform⟩
  · rintro ⟨e,f',hperform⟩
    obtain ⟨left',s'',hlast,-⟩ := (performs_simulates hf).2 e f' hperform
    exact ⟨e,left',s'',hlast⟩

theorem parseParens_translate : TreesTranslate parseParens := by
  intro text t ht
  rw [parseParens] at ht
  split at ht
  · cases ht
    refine ⟨⟨_,_,rfl⟩,?_,?_⟩
    · simp [parenProgram, ParseTree.IntsDecimal, AllIntsDecimal]
    · simp [parenProgram, ParseTree.Survives, AllSurvive, allBlank, ParseTree.isBlank, eofText]
  · cases ht

theorem parens_countReturns : ∃ e left s, Performs (intConfig true) true parseParens zeroed 0 fresh
    (.fuzzCount "(x)".toList) e left s :=
  (callback_returns_iff parseParens_translate (Mutator.start_run ..) rfl .start (.fuzzCount "(x)".toList)).mpr rfl

end PolyGlot
