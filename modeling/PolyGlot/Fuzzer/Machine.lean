import PolyGlot.Fuzzer.Campaign
import PolyGlot.Mutation.Shelving
import PolyGlot.Support.Simulation

set_option autoImplicit false

/-! # The fuzzer without memory

What the callbacks of the syntax-only mode do, said on values: a library of
trees without ids, the random values to come and the texts not yet taken. Every
campaign is a run of this machine, so no address, id or hash set shows in it.
-/
namespace PolyGlot

open BinaryTree TreeHeap Prog

structure Machine where
  library : Entries
  rand : Rand
  testCases : List Str

abbrev OnValues := Prog Fault Machine

section
variable (parse : Str → Option ParseTree)

def readText (text : Str) : OnValues (Option IR) :=
  match parse text with
  | none => return none
  | some t => liftM (translation t)

def enterTree : Option IR → OnValues Unit
  | none => return ()
  | some ir => modify fun s =>
    let out := saveIR (extracted ir) (s.library,s.rand)
    { s with library := out.1, rand := out.2 }

def enterText (text : Str) : OnValues Unit := do enterTree (← readText parse text)

def offerMutant (t : IR) : OnValues Unit :=
  onlyIf (t.getChildNum ≤ 1500) do
    let root ← readText parse t.render
    onlyIf (root.isSome = true) (modify fun s => { s with testCases := s.testCases ++ [t.render] })

def offerMutants : List IR → OnValues Unit
  | [] => return ()
  | t :: ts => do
    offerMutant parse t
    offerMutants ts

def mutateTree : Option IR → OnValues Unit
  | none => return ()
  | some root =>
    if root.getChildNum > 1500 then return ()
    else do
      let s ← get
      let out := mutateIRs s.library root s.rand
      set { s with rand := out.2 }
      offerMutants parse out.1

def refillTexts (text : Str) : OnValues (List Str) := do
  let s ← get
  assertThat (s.testCases = []) .assertion
  mutateTree parse (← readText parse text)
  return (← get).testCases

def takeText : OnValues Str := do
  let s ← get
  assertThat (s.testCases ≠ []) .assertion
  set { s with testCases := s.testCases.dropLast }
  return s.testCases.getLastD []

def perform : Callback → OnValues (Handout.Event Str)
  | .queueNewEntry content => do
    enterText parse (cStr content)
    return .other
  | .fuzzCount buf => do return .refill (← refillTexts parse (cStr buf))
  | .fuzz => do return .hand (← takeText)

def performAll : List Callback → OnValues (List (Handout.Event Str))
  | [] => return []
  | c :: cs => do
    let es ← performAll cs
    let e ← perform parse c
    return e :: es

end

section
variable {parse : Str → Option ParseTree} {cfg : Configuration} {g : Garbage} {m m' : Mutator} {f : Machine}

structure Stores (g : Garbage) (m : Mutator) (f : Machine) : Prop where
  run : LibraryRun g (fun _ => True) m
  library : ∀ lib, LibraryInv m lib → lib.erased = f.library
  rand : m.rand = f.rand

theorem LibraryInv.unique {lib lib' : Shelves} (h : LibraryInv m lib) (h' : LibraryInv m lib') : lib = lib' :=
  h.eq_of_ptrs h'.entries h'.holds

/-- The mutator works elsewhere in memory. -/
theorem Stores.same (h : Stores g m f) (hext : Extends m.heap m'.heap) (hlist : m'.irLibrary = m.irLibrary)
    (hhash : m'.irLibraryHash = m.irLibraryHash) (hmoved : Moved g m m') (hrand : m'.rand = m.rand) : Stores g m' f := by
  obtain ⟨lib,hinv,-,-⟩ := h.run.inv
  have hkept : LibraryInv m' lib := hinv.keep (fun T t ht a ha => hext.cell a ((hinv.holds T t ht).lt ha)) hlist hhash
  refine ⟨hmoved.run h.run,fun lib' hinv' => ?_,hrand.trans h.rand⟩
  rw [hinv'.unique hkept]
  exact h.library lib hinv

theorem translateNode_cases (t : ParseTree) (id : StatementID) :
    (∃ e, translateNode g.scopeId t id = .error e ∧ translation t = .error e) ∨
      ∃ r id', translateNode g.scopeId t id = .ok (r,id') ∧ translation t = .ok (r.map IR.erase) := by
  rw [← withoutIds_translateNode g.scopeId t id]
  cases h : translateNode g.scopeId t id with
  | error e => exact .inl ⟨e,rfl,rfl⟩
  | ok p => exact .inr ⟨p.1,p.2,rfl,rfl⟩

def SameTree (m m' : Mutator) (root : Ptr) (ir : Option IR) : Prop :=
  root = none ∧ ir = none ∨
    ∃ u, NewTree m.heap m'.heap u ∧ ptr u = root ∧ u ≠ .nil ∧ ir = some (IR.erase (vals u))

theorem translateText_simulates (text : Str) (h : Stores g m f) :
    Simulates (translateText parse g text) m (readText parse text) f fun root m' ir f' =>
      f' = f ∧ Stores g m' f ∧ Moved g m m' ∧ SameTree m m' root ir := by
  unfold translateText readText
  cases parse text with
  | none => exact Simulates.pure ⟨rfl,h,Moved.refl m,.inl ⟨rfl,rfl⟩⟩
  | some t =>
    rcases translateNode_cases (g := g) t m.idCounter with ⟨e,ht,htree⟩ | ⟨r,id',ht,htree⟩
    · have hfail : translateToIR g t m = .error e := by rw [translateToIR, ht]
      refine ⟨fun a s' hrun => ?_,fun e' hrun => ?_⟩
      · simp only [hfail] at hrun
        cases hrun
      · simp only [hfail] at hrun
        cases hrun
        simp only [htree]
        rfl
    · have hread : (liftM (translation t) : OnValues (Option IR)) f = .ok (r.map IR.erase,f) := by
        rw [htree]
        rfl
      refine Simulates.of_meets hread ?_
      cases r with
      | none =>
        refine ⟨none,{ m with idCounter := id' },by simp only [translateToIR, ht],rfl,?_,?_,.inl ⟨rfl,rfl⟩⟩
        · exact h.same (Extends.refl _) rfl rfl (Moved.of_same (Extends.refl _) rfl rfl rfl) rfl
        · exact Moved.of_same (Extends.refl _) rfl rfl rfl
      | some ir =>
        refine (meets_translateToIR ht).mono ?_
        rintro root m' ⟨u,hnew,rfl,rfl,hlist,hhash,hempty,hrand⟩
        have hmoved : Moved g m m' := Moved.of_same hnew.ext hlist hhash hempty
        refine ⟨rfl,h.same hnew.ext hlist hhash hmoved hrand,hmoved,.inr ⟨u,hnew,rfl,fun hnil => ?_,rfl⟩⟩
        exact translateNode_ne_nil ht (by rw [hnil]; rfl)

theorem addTextToIRLibrary_simulates (text : Str) (h : Stores g m f) :
    Simulates (addTextToIRLibrary parse g text) m (enterText parse text) f fun _ m' _ f' =>
      Stores g m' f' ∧ f'.testCases = f.testCases := by
  unfold addTextToIRLibrary enterText readText
  cases parse text with
  | none => exact Simulates.pure ⟨h,rfl⟩
  | some t =>
    obtain ⟨lib,hinv,-,-⟩ := h.run.inv
    rcases translateNode_cases (g := g) t m.idCounter with ⟨e,ht,htree⟩ | ⟨r,id',ht,htree⟩
    · have hfail : addToIRLibrary g t m = .error e := by rw [addToIRLibrary, run_bind, translateToIR, ht]
      refine ⟨fun a s' hrun => ?_,fun e' hrun => ?_⟩
      · simp only [hfail] at hrun
        cases hrun
      · simp only [hfail] at hrun
        cases hrun
        simp only [run_bind, htree]
        rfl
    · cases r with
      | none =>
        have henter : (liftM (translation t) >>= enterTree : OnValues Unit) f = .ok ((),f) := by
          rw [htree]
          rfl
        have hrun : addToIRLibrary g t m = .ok ((),{ m with idCounter := id' }) := by
          rw [addToIRLibrary, run_bind, translateToIR, ht]
          rfl
        refine Simulates.of_meets henter ⟨(),_,hrun,?_,rfl⟩
        exact h.same (Extends.refl _) rfl rfl (Moved.of_same (Extends.refl _) rfl rfl rfl) rfl
      | some ir =>
        obtain ⟨⟨⟩,m',hrun,lib',hinv',hsaved⟩ := meets_addToIRLibrary_erased hinv ht
        have hextracted : extracted (IR.erase ir) = extracted ir := extracted_eq (erase_erase ir) _ 0
        rw [h.library lib hinv, h.rand, ← hextracted] at hsaved
        have henter : (liftM (translation t) >>= enterTree : OnValues Unit) f =
            .ok ((),{ f with library := lib'.erased, rand := m'.rand }) := by
          have hout : (liftM (translation t) >>= enterTree : OnValues Unit) f =
              .ok ((),{ f with
                library := (saveIR (extracted (IR.erase ir)) (f.library,f.rand)).1
                rand := (saveIR (extracted (IR.erase ir)) (f.library,f.rand)).2 }) := by
            rw [htree]
            rfl
          rw [hout, ← hsaved]
        refine Simulates.of_meets henter ⟨(),m',hrun,⟨h.run.add trivial hrun,fun lib'' hinv'' => ?_,rfl⟩,rfl⟩
        rw [hinv''.unique hinv']

structure Fuzzes (g : Garbage) (s : PolyGlotMutator) (f : Machine) : Prop where
  stores : Stores g s.mutator f
  testCases : s.saveTestCases = f.testCases

variable {s s' : PolyGlotMutator}

theorem getChildNum_erase (t : IR) : t.erase.getChildNum = t.getChildNum := by
  rw [IR.getChildNum_eq, IR.getChildNum_eq, IR.erase, values_map, List.length_map]

/-- One turn of the loop over the mutants. -/
theorem saveMutant_simulates {t : BinaryTree (ℕ × IRNode)} (ht : Holds s.mutator.heap t) (h : Fuzzes g s f) :
    Simulates (saveMutant cfg true parse g (ptr t)) s (offerMutant parse (IR.erase (vals t))) f fun _ s' _ f' =>
      Fuzzes g s' f' ∧ Moved g s.mutator s'.mutator := by
  have htree : Meets (onMutator (treeOf (ptr t))) s fun u s' => u = vals t ∧ s' = s := by
    refine Meets.onPart (Q := fun u m => u = vals t ∧ m = s.mutator) (meets_treeOf ht ⟨rfl,rfl⟩) ?_
    rintro u m ⟨rfl,rfl⟩
    exact ⟨rfl,rfl⟩
  have hrender : IR.render (IR.erase (vals t)) = IR.render (vals t) := by
    rw [IR.render, IR.render, toStringImpl_erase]
  unfold saveMutant offerMutant
  rw [if_pos rfl, hrender, getChildNum_erase]
  apply Simulates.after htree
  rintro u s₁ ⟨rfl,rfl⟩
  apply Simulates.onlyIf Iff.rfl _ fun _ => ⟨h,Moved.refl _⟩
  intro hsmall
  have hread : Simulates (onMutator (parsable parse g (IR.render (vals t)))) s₁ (readText parse (IR.render (vals t))) f
      fun fits s' ir f' => ∃ m', s' = { s₁ with mutator := m' } ∧ ∃ root : Ptr, fits = root.isSome ∧ f' = f ∧
        Stores g m' f ∧ Moved g s₁.mutator m' ∧ SameTree s₁.mutator m' root ir :=
    ((translateText_simulates (IR.render (vals t)) h.stores).map_left Option.isSome).onPart
  refine Simulates.bind hread ?_
  rintro _ _ ir f' ⟨m',rfl,root,rfl,rfl,hstores,hmoved,hsame⟩
  have hsome : root.isSome = true ↔ ir.isSome = true := by
    rcases hsame with ⟨rfl,rfl⟩ | ⟨u,-,rfl,hne,rfl⟩
    · exact Iff.rfl
    · simpa [Option.isSome_iff_ne_none, ptr_eq_none] using hne
  apply Simulates.onlyIf hsome _ fun _ => ⟨⟨hstores,h.testCases⟩,hmoved⟩
  intro _
  refine Simulates.of_meets rfl (Meets.modify ⟨⟨⟨hstores.run,hstores.library,hstores.rand⟩,?_⟩,hmoved⟩)
  rw [h.testCases]

theorem saveMutants_simulates {ms : List (BinaryTree (ℕ × IRNode))} (hms : ∀ t ∈ ms, Holds s.mutator.heap t)
    (h : Fuzzes g s f) : Simulates (saveMutants cfg true parse g (ms.map ptr)) s
      (offerMutants parse (ms.map fun t => IR.erase (vals t))) f fun _ s' _ f' => Fuzzes g s' f' := by
  induction ms generalizing s f with
  | nil => exact Simulates.pure h
  | cons t ms ih =>
    obtain ⟨ht,hrest⟩ := List.forall_mem_cons.mp hms
    refine (saveMutant_simulates ht h).bind ?_
    rintro _ s₁ _ f₁ ⟨h₁,hmoved⟩
    exact ih (fun u hu => (hrest u hu).keep hmoved.ext) h₁

/-- The mutants in memory are those of the machine. -/
theorem Mutants.stores {lib : Shelves} {u : BinaryTree (ℕ × IRNode)} {irs : List Ptr} {ms : List (BinaryTree (ℕ × IRNode))}
    (hm : Mutants g lib u m m' irs ms) (hinv : LibraryInv m lib) (h : Stores g m f) :
    (ms.map fun t => IR.erase (vals t)) = (mutateIRs f.library (IR.erase (vals u)) f.rand).1 ∧
      Stores g m' { f with rand := (mutateIRs f.library (IR.erase (vals u)) f.rand).2 } := by
  have hsame : mutateIRs lib.values (vals u) m.rand = mutateIRs f.library (IR.erase (vals u)) f.rand := by
    rw [mutateIRs_erase lib.sameEntries (erase_erase (vals u)).symm, h.library lib hinv, h.rand]
  have hstep := hm.mutated.step
  have hkept : LibraryInv m' lib := hinv.keep (fun T t ht a ha => hstep.ext.cell a ((hinv.holds T t ht).lt ha))
    hstep.lists.1 hstep.lists.2
  refine ⟨by rw [hm.mutated.vals, hsame],hm.moved.run h.run,fun lib' hinv' => ?_,?_⟩
  · rw [hinv'.unique hkept]
    exact h.library lib hinv
  · rw [hm.mutated.rand, hsame]

/-- `Mutate`, once the test cases were taken. -/
theorem mutate_simulates (text : Str) (h : Fuzzes g s f) (hempty : f.testCases = []) :
    Simulates (mutate cfg true parse g text) s (do mutateTree parse (← readText parse text); return (← get).testCases) f
      fun n s' texts f' => Fuzzes g s' f' ∧ texts = f'.testCases ∧ n = texts.length := by
  have hread : Simulates (translateText parse g text) s.mutator (readText parse text) f _ := translateText_simulates text h.stores
  cases htext : translateText parse g text s.mutator with
  | error e =>
    have hmutate : mutate cfg true parse g text s = (fail e : Fuzz ℕ) s := by
      simp only [mutate, run_bind, onMutator, onPart, htext]
      rfl
    have hmachine : (do mutateTree parse (← readText parse text); return (← get).testCases : OnValues (List Str)) f =
        (fail e : OnValues (List Str)) f := by
      rw [run_bind, hread.fails e htext]
      rfl
    exact Simulates.fail.congr hmutate hmachine
  | ok r =>
    obtain ⟨root,m⟩ := r
    obtain ⟨ir,f',hrun,rfl,hstores,-,hsame⟩ := hread.returns root m htext
    have hmachine : (do mutateTree parse (← readText parse text); return (← get).testCases : OnValues (List Str)) f' =
        (do mutateTree parse ir; return (← get).testCases : OnValues (List Str)) f' := by rw [run_bind, hrun]
    rcases hsame with ⟨rfl,rfl⟩ | ⟨u,hnew,rfl,hne,rfl⟩
    · have hmutate : mutate cfg true parse g text s = (pure 0 : Fuzz ℕ) { s with mutator := m } := mutate_none htext
      refine Simulates.congr ?_ hmutate hmachine
      exact Simulates.of_meets rfl (Meets.pure ⟨⟨hstores,h.testCases⟩,rfl,by rw [hempty]; rfl⟩)
    · obtain ⟨lib,hinv,-,hemptyIr⟩ := hstores.run.inv
      obtain ⟨irs,ms,m₂,hmutants⟩ := exists_mutants (g := g) hinv hemptyIr hnew.holds hnew.nodup hne
      obtain ⟨hvals,hstores₂⟩ := hmutants.stores hinv hstores
      have hmutate : mutate cfg true parse g text s = if irs.length > 1500 then _ else _ := mutate_mutants htext hne hmutants
      have hsize : irs.length = IR.getChildNum (IR.erase (vals u)) := by rw [hmutants.size, getChildNum_erase]
      by_cases hlarge : irs.length > 1500
      · have hnothing : mutate cfg true parse g text s = (pure 0 : Fuzz ℕ) { s with mutator := m } :=
          hmutate.trans (if_pos hlarge)
        refine Simulates.congr ?_ hnothing hmachine
        refine Simulates.of_meets (b := []) (v := f') ?_ (Meets.pure ⟨⟨hstores,h.testCases⟩,hempty.symm,rfl⟩)
        rw [run_bind, mutateTree, if_pos (hsize ▸ hlarge)]
        exact congrArg Except.ok (Prod.ext hempty rfl)
      · rw [if_neg hlarge] at hmutate
        have hoffer : (do mutateTree parse (some (IR.erase (vals u))); return (← get).testCases : OnValues (List Str)) f' =
            (do offerMutants parse (ms.map fun t => IR.erase (vals t)); return (← get).testCases : OnValues (List Str))
              { f' with rand := (mutateIRs f'.library (IR.erase (vals u)) f'.rand).2 } := by
          rw [hvals, run_bind, run_bind (offerMutants parse _), mutateTree, if_neg (hsize ▸ hlarge)]
          rfl
        refine Simulates.congr ?_ hmutate (hmachine.trans hoffer)
        have hfuzzes : Fuzzes g { s with mutator := m₂ }
            { f' with rand := (mutateIRs f'.library (IR.erase (vals u)) f'.rand).2 } := ⟨hstores₂,h.testCases⟩
        refine (saveMutants_simulates hmutants.mutated.holds hfuzzes).bind ?_
        intro _ s₄ _ f₄ h₄
        refine Simulates.of_meets rfl ⟨_,s₄,rfl,h₄,rfl,?_⟩
        rw [← h₄.testCases]

variable {left : ℕ} {c : Callback}

/-- A callback of the program and the step of the machine: both stop with the
same fault, or the host is told the same. -/
theorem performs_simulates (h : Fuzzes g s f) :
    (∀ e left' s', Performs cfg true parse g left s c e left' s' →
      ∃ f', perform parse c f = .ok (e,f') ∧ Fuzzes g s' f') ∧
    ∀ e f', perform parse c f = .ok (e,f') →
      ∃ left' s', Performs cfg true parse g left s c e left' s' ∧ Fuzzes g s' f' := by
  cases c with
  | queueNewEntry content =>
    have hrun : Simulates (aflCustomQueueNewEntry parse g content) s (enterText parse (cStr content)) f fun _ s' _ f' =>
        Fuzzes g s' f' := by
      refine (addTextToIRLibrary_simulates (cStr content) h.stores).onPart.mono ?_
      rintro _ s' _ f' ⟨m',rfl,hstores,hsame⟩
      exact ⟨hstores,h.testCases.trans hsame.symm⟩
    constructor
    · intro e left' s' hc
      cases hc with
      | queueNewEntry hqueue =>
        obtain ⟨_,f',hf,hfuzzes⟩ := hrun.returns _ _ hqueue
        exact ⟨f',by rw [perform, run_bind, hf]; rfl,hfuzzes⟩
    · intro e f' hperform
      obtain ⟨_,f₁,hf,heq⟩ := of_bind hperform
      cases heq
      obtain ⟨_,s',hqueue,hfuzzes⟩ := hrun.of_run hf
      exact ⟨left,s',.queueNewEntry hqueue,hfuzzes⟩
  | fuzzCount buf =>
    have hrun : Simulates (aflCustomFuzzCount cfg true parse g buf) s (refillTexts parse (cStr buf)) f
        fun n s' texts f' => Fuzzes g s' f' ∧ texts = f'.testCases ∧ n = texts.length := by
      apply Simulates.get_bind
      refine (Simulates.assertThat (by rw [h.testCases])).bind ?_
      rintro _ _ _ _ ⟨hempty,rfl,rfl⟩
      exact mutate_simulates (cStr buf) h (h.testCases ▸ hempty)
    constructor
    · intro e left' s' hc
      cases hc with
      | fuzzCount hcount =>
        obtain ⟨texts,f',hf,hfuzzes,rfl,-⟩ := hrun.returns _ _ hcount
        exact ⟨f',by rw [perform, run_bind, hf, hfuzzes.testCases]; rfl,hfuzzes⟩
    · intro e f' hperform
      obtain ⟨texts,f₁,hf,heq⟩ := of_bind hperform
      cases heq
      obtain ⟨n,s',hcount,hfuzzes,rfl,-⟩ := hrun.of_run hf
      refine ⟨n,s',?_,hfuzzes⟩
      rw [← hfuzzes.testCases]
      exact .fuzzCount hcount
  | fuzz =>
    have hrun : Simulates aflCustomFuzz s takeText f fun text s' text' f' => text = text' ∧ Fuzzes g s' f' := by
      apply Simulates.get_bind
      refine (Simulates.assertThat (by rw [h.testCases])).bind ?_
      rintro _ _ _ _ ⟨_,rfl,rfl⟩
      refine Simulates.of_meets rfl ⟨_,_,rfl,by rw [h.testCases],⟨h.stores.run,h.stores.library,h.stores.rand⟩,?_⟩
      rw [h.testCases]
    constructor
    · intro e left' s' hc
      cases hc with
      | fuzz hfuzz =>
        obtain ⟨_,f',hf,rfl,hfuzzes⟩ := hrun.returns _ _ hfuzz
        exact ⟨f',by rw [perform, run_bind, hf]; rfl,hfuzzes⟩
    · intro e f' hperform
      obtain ⟨text,f₁,hf,heq⟩ := of_bind hperform
      cases heq
      obtain ⟨_,s',hfuzz,rfl,hfuzzes⟩ := hrun.of_run hf
      exact ⟨left - 1,s',.fuzz hfuzz,hfuzzes⟩

/-- The runs of both, step by step. -/
theorem campaign_simulates (h : Fuzzes g s f) (calls : List Callback) (es : List (Handout.Event Str)) :
    (∀ left s', Campaign cfg true parse g s calls es left s' →
      ∃ f', performAll parse calls f = .ok (es,f') ∧ Fuzzes g s' f') ∧
    ∀ f', performAll parse calls f = .ok (es,f') →
      ∃ left s', Campaign cfg true parse g s calls es left s' ∧ Fuzzes g s' f' := by
  induction calls generalizing es with
  | nil =>
    constructor
    · intro left s' hc
      cases hc
      exact ⟨f,rfl,h⟩
    · intro f' hf
      cases hf
      exact ⟨0,s,.start,h⟩
  | cons c cs ih =>
    constructor
    · intro left s' hc
      cases hc with
      | callback hc hlast =>
        obtain ⟨f₁,hf₁,h₁⟩ := (ih _).1 _ _ hc
        obtain ⟨f',hf',h'⟩ := (performs_simulates h₁).1 _ _ _ hlast
        refine ⟨f',?_,h'⟩
        rw [performAll, run_bind, hf₁]
        dsimp only
        rw [run_bind, hf']
        rfl
    · intro f' hf
      obtain ⟨es₁,f₁,hf₁,hf⟩ := of_bind hf
      obtain ⟨e,f₂,hf₂,heq⟩ := of_bind hf
      cases heq
      obtain ⟨left,s₁,hc,h₁⟩ := (ih _).2 _ hf₁
      obtain ⟨left',s',hlast,h'⟩ := (performs_simulates h₁).2 _ _ hf₂
      exact ⟨left',s',.callback hc hlast,h'⟩

/-- Every state of a library run is one of the machine. -/
theorem exists_fuzzes (h : LibraryRun g (fun _ => True) s.mutator) : ∃ f, Fuzzes g s f := by
  obtain ⟨lib,hinv,-,-⟩ := h.inv
  refine ⟨⟨lib.erased,s.mutator.rand,s.saveTestCases⟩,⟨h,fun lib' hinv' => ?_,rfl⟩,rfl⟩
  rw [hinv'.unique hinv]

/-- The machine that a program starts as. -/
theorem fuzzes_start (hlist : s.mutator.irLibrary = fun _ => []) (hhash : s.mutator.irLibraryHash = fun _ => ∅)
    (hempty : EmptyOk s.mutator) : Fuzzes g s ⟨fun _ => [],s.mutator.rand,s.saveTestCases⟩ := by
  have hrun : LibraryRun g (fun _ => True) s.mutator := .start hlist hhash hempty
  refine ⟨⟨hrun,fun lib hinv => ?_,rfl⟩,rfl⟩
  funext T
  have hnil : lib T = [] := by
    rw [← List.map_eq_nil_iff (f := ptr), ← hinv.entries, hlist]
  rw [Shelves.erased, hnil]
  rfl

theorem fresh_fuzzes : Fuzzes zeroed fresh ⟨fun _ => [],Stream'.const 0,[]⟩ := fuzzes_start rfl rfl (.inl rfl)

/-- After every sequence of additions there is a state of the machine from which
it does what the program does: for every schedule the host is told the same, and
the one ends where the other does. -/
theorem campaign_iff_machine (h : LibraryRun g (fun _ => True) s.mutator) : ∃ f, Fuzzes g s f ∧
    ∀ calls es, (∃ left s', Campaign cfg true parse g s calls es left s') ↔ ∃ f', performAll parse calls f = .ok (es,f') := by
  obtain ⟨f,hf⟩ := exists_fuzzes h
  refine ⟨f,hf,fun calls es => ⟨?_,?_⟩⟩
  · rintro ⟨left,s',hc⟩
    obtain ⟨f',hrun,-⟩ := (campaign_simulates hf calls es).1 left s' hc
    exact ⟨f',hrun⟩
  · rintro ⟨f',hrun⟩
    obtain ⟨left,s',hc,-⟩ := (campaign_simulates hf calls es).2 f' hrun
    exact ⟨left,s',hc⟩

theorem fresh_machine : ∃ f, Fuzzes zeroed fresh f ∧ ∀ calls es,
    (∃ left s', Campaign (intConfig true) true parseParens zeroed fresh calls es left s') ↔
      ∃ f', performAll parseParens calls f = .ok (es,f') :=
  campaign_iff_machine (Mutator.start_run ..)

/-- The host cannot tell what memory holds: two programs with the same library
up to ids and the same random values tell it the same, whatever their cells,
their id counters, their types and their configurations are. -/
theorem campaign_forgets_memory {cfg' : Configuration} {g' : Garbage} {s₁ s₂ : PolyGlotMutator} (h₁ : Fuzzes g s₁ f)
    (h₂ : Fuzzes g' s₂ f) (calls : List Callback) (es : List (Handout.Event Str)) :
    (∃ left s', Campaign cfg true parse g s₁ calls es left s') ↔ ∃ left s', Campaign cfg' true parse g' s₂ calls es left s' := by
  constructor
  · rintro ⟨left,s',hc⟩
    obtain ⟨f',hrun,-⟩ := (campaign_simulates h₁ calls es).1 left s' hc
    obtain ⟨left',s'',hc',-⟩ := (campaign_simulates h₂ calls es).2 f' hrun
    exact ⟨left',s'',hc'⟩
  · rintro ⟨left,s',hc⟩
    obtain ⟨f',hrun,-⟩ := (campaign_simulates h₂ calls es).1 left s' hc
    obtain ⟨left',s'',hc',-⟩ := (campaign_simulates h₁ calls es).2 f' hrun
    exact ⟨left',s'',hc'⟩

/-- Two programs that started in different memories, with different configurations. -/
theorem parens_forgetMemory : ∃ s : PolyGlotMutator, s.mutator.heap = parenHeap ∧ ∀ calls es,
    (∃ left s', Campaign (intConfig true) true parseParens zeroed fresh calls es left s') ↔
      ∃ left s', Campaign (intConfig false) true parseParens ⟨fun id => id + 1,fun a => (a,a)⟩ s calls es left s' := by
  have hstart : Fuzzes ⟨fun id => id + 1,fun a => (a,a)⟩ ⟨Mutator.start parenHeap (Stream'.const 0),.initial,[],[]⟩
      ⟨fun _ => [],Stream'.const 0,[]⟩ := fuzzes_start rfl rfl (.inl rfl)
  exact ⟨_,rfl,campaign_forgets_memory fresh_fuzzes hstart⟩

end

end PolyGlot
