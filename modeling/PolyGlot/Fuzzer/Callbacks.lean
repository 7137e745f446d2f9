import PolyGlot.Mutation.Graft
import PolyGlot.Validate.Validation
import PolyGlot.Support.Handout

set_option autoImplicit false

/-! # The callbacks of the fuzzer

Class `PolyGlotMutator` and the three callbacks that the host makes. The parser
that the grammar gives is a parameter; it gives no tree for a text with syntax
errors. A test case is one text for each mutant that passes its check.
-/
namespace PolyGlot

open TreeHeap Prog

structure PolyGlotMutator where
  mutator : Mutator
  /-- The static members of class `TypeSystem`. -/
  types : TypeSystem
  saveTestCases : List Str
  currentInput : Str

abbrev Fuzz := Prog Fault PolyGlotMutator

def onMutator {α : Type} (m : Run α) : Fuzz α :=
  onPart PolyGlotMutator.mutator (fun m s => { s with mutator := m }) id m

def onRand {α : Type} (m : Prog Fault Rand α) : Run α := onPart Mutator.rand (fun r s => { s with rand := r }) id m

/-- A `const char *` ends at the first zero. -/
def cStr (s : Str) : Str := s.takeWhile (· ≠ Char.ofNat 0)

section
variable (cfg : Configuration) (syntaxOnly : Bool) (parse : Str → Option ParseTree) (g : Garbage)

def translateText (text : Str) : Run Ptr :=
  match parse text with
  | none => return none
  | some t => translateToIR g t

def parsable (text : Str) : Run Bool := do return (← translateText parse g text).isSome

def addTextToIRLibrary (mem : Str) : Run Unit :=
  match parse mem with
  | none => return ()
  | some t => addToIRLibrary g t

/-- `g_validator.Validate` on a mutant. Nothing else points to the nodes of its
tree; a placeholder takes an id before it gets that of its unit. -/
def validateMutant (ir : Ptr) : Fuzz Validated := do
  let t ← onMutator (treeOf ir)
  let s ← get
  let v ← onMutator (onRand (validate cfg s.types t))
  modify fun s => { s with
    types := v.types
    mutator := { s.mutator with idCounter := s.mutator.idCounter + placeholdersMade t } }
  return v

def pushTestCase (text : Str) : Fuzz Unit := modify fun s => { s with saveTestCases := s.saveTestCases ++ [text] }

def saveMutant (ir : Ptr) : Fuzz Unit := do
  if syntaxOnly then
    let t ← onMutator (treeOf ir)
    onlyIf (t.getChildNum ≤ 1500) do
      let irStr := t.render
      let fits ← onMutator (parsable parse g irStr)
      onlyIf (fits = true) (pushTestCase irStr)
  else
    let v ← validateMutant cfg ir
    onlyIf (v.error = .kSuccess) (pushTestCase v.root.render)

def saveMutants : List Ptr → Fuzz Unit
  | [] => return ()
  | ir :: irs => do
    saveMutant cfg syntaxOnly parse g ir
    saveMutants irs

/-- `Mutate`. The number of test cases stays far below the range of `unsigned`. -/
def mutate (testCase : Str) : Fuzz ℕ := do
  let root ← onMutator (translateText parse g testCase)
  if root = none then return 0
  else
    let irSet ← onMutator (onHeap (collectAllIRs root))
    if irSet.length > 1500 then return 0
    else
      let mutatedTree ← onMutator (mutateIRsAt g irSet)
      saveMutants cfg syntaxOnly parse g mutatedTree
      return (← get).saveTestCases.length

def getNextMutatedTestCase : Fuzz Str := do
  let s ← get
  assertThat (s.saveTestCases ≠ []) .assertion
  let currentInput := s.saveTestCases.getLastD []
  set { s with currentInput := currentInput, saveTestCases := s.saveTestCases.dropLast }
  return currentInput

def aflCustomQueueNewEntry (content : Str) : Fuzz Unit := onMutator (addTextToIRLibrary parse g (cStr content))

def aflCustomFuzzCount (buf : Str) : Fuzz ℕ := do
  let s ← get
  assertThat (s.saveTestCases = []) .assertion
  mutate cfg syntaxOnly parse g (cStr buf)

def aflCustomFuzz : Fuzz Str := getNextMutatedTestCase

end

section
variable {cfg : Configuration} {syntaxOnly : Bool} {parse : Str → Option ParseTree} {g : Garbage}

structure Moved (g : Garbage) (s s' : Mutator) : Prop where
  ext : Extends s.heap s'.heap
  run : LibraryRun g (fun _ => True) s → LibraryRun g (fun _ => True) s'

theorem Moved.refl (s : Mutator) : Moved g s s := ⟨Extends.refl _,id⟩

theorem Moved.trans {s₁ s₂ s₃ : Mutator} (h : Moved g s₁ s₂) (h' : Moved g s₂ s₃) : Moved g s₁ s₃ :=
  ⟨h.ext.trans h'.ext,fun hrun => h'.run (h.run hrun)⟩

theorem Moved.of_same {s s' : Mutator} (hext : Extends s.heap s'.heap) (hlist : s'.irLibrary = s.irLibrary)
    (hhash : s'.irLibraryHash = s.irLibraryHash) (hempty : s'.emptyIr = s.emptyIr) : Moved g s s' := by
  refine ⟨hext,fun hrun => hrun.elsewhere hext hlist hhash ?_⟩
  obtain ⟨_,_,_,hok⟩ := hrun.inv
  rw [EmptyOk, hempty]
  rcases hok with hnone | ⟨t,hptr,ht,hvals⟩
  · exact .inl hnone
  · exact .inr ⟨t,hptr,ht.keep hext,hvals⟩

/-- The text has no tree, or one that the translator accepts. -/
def Translates (parse : Str → Option ParseTree) (g : Garbage) (text : Str) (s : Mutator) : Prop :=
  ∀ t, parse text = some t → ∃ r, translateNode g.scopeId t s.idCounter = .ok r

structure TextRead (parse : Str → Option ParseTree) (g : Garbage) (text : Str) (s s' : Mutator) (root : Ptr) : Prop where
  ext : Extends s.heap s'.heap
  lists : s'.irLibrary = s.irLibrary ∧ s'.irLibraryHash = s.irLibraryHash
  emptyIr : s'.emptyIr = s.emptyIr
  tree : root ≠ none → ∃ t u id', parse text = some t ∧ translateNode g.scopeId t s.idCounter = .ok (some (vals u),id') ∧
    NewTree s.heap s'.heap u ∧ ptr u = root ∧ u ≠ .nil

theorem TextRead.moved {text : Str} {s s' : Mutator} {root : Ptr} (h : TextRead parse g text s s' root) : Moved g s s' :=
  Moved.of_same h.ext h.lists.1 h.lists.2 h.emptyIr

theorem TextRead.inv {text : Str} {s s' : Mutator} {root : Ptr} (h : TextRead parse g text s s' root) {lib : Shelves}
    (hinv : LibraryInv s lib) : LibraryInv s' lib :=
  hinv.keep (fun T t ht a ha => h.ext.cell a ((hinv.holds T t ht).lt ha)) h.lists.1 h.lists.2

theorem translateText_decides (text : Str) (s : Mutator) :
    Decides (translateText parse g text) s (Translates parse g text s) fun root s' => TextRead parse g text s s' root := by
  unfold translateText Translates
  cases hparse : parse text with
  | none => exact (Decides.pure ⟨Extends.refl _,⟨rfl,rfl⟩,rfl,fun h => absurd rfl h⟩).iff (by simp)
  | some t =>
    simp only [Option.some.injEq, forall_eq']
    cases ht : translateNode g.scopeId t s.idCounter with
    | error f =>
      refine ⟨fun hok => ?_,fun _ => ⟨f,by rw [translateToIR, ht]⟩⟩
      obtain ⟨r,hr⟩ := hok
      cases hr
    | ok r =>
      refine (Decides.of_meets ?_).iff (by simp)
      obtain ⟨_ | ir,id'⟩ := r
      · exact ⟨none,{ s with idCounter := id' },by rw [translateToIR, ht],Extends.refl _,⟨rfl,rfl⟩,rfl,fun h => absurd rfl h⟩
      · refine (meets_translateToIR ht).mono ?_
        rintro _ s' ⟨u,hnew,rfl,rfl,hlist,hhash,hempty,_⟩
        refine ⟨hnew.ext,⟨hlist,hhash⟩,hempty,fun _ => ⟨t,u,id',hparse,ht,hnew,rfl,?_⟩⟩
        intro hnil
        exact translateNode_ne_nil ht (by rw [hnil]; rfl)

theorem addTextToIRLibrary_decides (text : Str) {s : Mutator} (h : LibraryRun g (fun _ => True) s) :
    Decides (addTextToIRLibrary parse g text) s (Translates parse g text s) fun _ s' => Moved g s s' := by
  unfold addTextToIRLibrary Translates
  cases hparse : parse text with
  | none =>
    have hpure : Decides (pure () : Run Unit) s True fun _ s' => Moved g s s' := Decides.pure (Moved.refl s)
    exact hpure.iff (by simp)
  | some t =>
    simp only [Option.some.injEq, forall_eq']
    obtain ⟨lib,hinv,_,_⟩ := h.inv
    cases ht : translateNode g.scopeId t s.idCounter with
    | error f =>
      refine ⟨fun hok => ?_,fun _ => ⟨f,by rw [addToIRLibrary, run_bind, translateToIR, ht]⟩⟩
      obtain ⟨r,hr⟩ := hok
      cases hr
    | ok r =>
      refine (Decides.of_meets ?_).iff (by simp)
      obtain ⟨_,s',hrun,lib',hadded⟩ := meets_addToIRLibrary hinv ht
      exact ⟨(),s',hrun,hadded.ext,fun hstart => hstart.add trivial hrun⟩

theorem of_onMutator {α : Type} {m : Run α} {s s' : PolyGlotMutator} {a : α} (h : onMutator m s = .ok (a,s')) :
    ∃ t, m s.mutator = .ok (a,t) ∧ s' = { s with mutator := t } := of_onPart h

theorem onMutator_run {α : Type} {m : Run α} {s : PolyGlotMutator} {t : Mutator} {a : α} (h : m s.mutator = .ok (a,t)) :
    onMutator m s = .ok (a,{ s with mutator := t }) := by simp only [onMutator, onPart, h]

/-- One turn of the loop, with the tree that is checked. -/
inductive Saves (cfg : Configuration) (parse : Str → Option ParseTree) (g : Garbage) (s : PolyGlotMutator) (t : IR) :
    Bool → PolyGlotMutator → Prop
  | large (hlarge : ¬ t.getChildNum ≤ 1500) : Saves cfg parse g s t true s
  | read {root : Ptr} {m : Mutator} (hsmall : t.getChildNum ≤ 1500)
      (htranslate : translateText parse g t.render s.mutator = .ok (root,m)) :
      Saves cfg parse g s t true { s with
        mutator := m
        saveTestCases := if root.isSome then s.saveTestCases ++ [t.render] else s.saveTestCases }
  | validated {v : Validated} {r : Rand} (hvalidate : validate cfg s.types t s.mutator.rand = .ok (v,r)) :
      Saves cfg parse g s t false { s with
        types := v.types
        mutator := { s.mutator with rand := r, idCounter := s.mutator.idCounter + placeholdersMade t }
        saveTestCases := if v.error = .kSuccess then s.saveTestCases ++ [v.root.render] else s.saveTestCases }

inductive SavesAll (cfg : Configuration) (parse : Str → Option ParseTree) (g : Garbage) (syntaxOnly : Bool) :
    PolyGlotMutator → List Ptr → List IR → PolyGlotMutator → Prop
  | nil {s : PolyGlotMutator} : SavesAll cfg parse g syntaxOnly s [] [] s
  | cons {s s₁ s' : PolyGlotMutator} {p : Ptr} {ps : List Ptr} {t : IR} {ts : List IR}
      (htree : treeOf p s.mutator = .ok (t,s.mutator)) (h : Saves cfg parse g s t syntaxOnly s₁)
      (hs : SavesAll cfg parse g syntaxOnly s₁ ps ts s') : SavesAll cfg parse g syntaxOnly s (p :: ps) (t :: ts) s'

variable {s s' : PolyGlotMutator} {t : IR} {ts : List IR} {text : Str} {m m' : Mutator} {u : BinaryTree (ℕ × IRNode)}
  {lib : Shelves} {irs ps : List Ptr} {ms : List (BinaryTree (ℕ × IRNode))} {root : Ptr} {n : ℕ}

theorem of_pushTestCase {c : Prop} [Decidable c] (h : onlyIf c (pushTestCase text) s = .ok ((),s')) :
    s' = { s with saveTestCases := if c then s.saveTestCases ++ [text] else s.saveTestCases } := by
  unfold onlyIf at h
  split at h
  · cases h
    rw [if_pos ‹_›]
  · cases h
    rw [if_neg ‹_›]

theorem of_onTree {p : Ptr} (h : onMutator (treeOf p) s = .ok (t,s')) :
    treeOf p s.mutator = .ok (t,s.mutator) ∧ s' = s := by
  obtain ⟨m,htree,rfl⟩ := of_onMutator h
  obtain rfl := treeOf_reads htree
  exact ⟨htree,rfl⟩

theorem of_validateMutant {p : Ptr} {v : Validated} (h : validateMutant cfg p s = .ok (v,s')) :
    ∃ t r, treeOf p s.mutator = .ok (t,s.mutator) ∧ validate cfg s.types t s.mutator.rand = .ok (v,r) ∧
      s' = { s with
        types := v.types
        mutator := { s.mutator with rand := r, idCounter := s.mutator.idCounter + placeholdersMade t } } := by
  obtain ⟨t,s₁,hload,hrun⟩ := of_bind h
  obtain ⟨htree,rfl⟩ := of_onTree hload
  rw [run_get_bind] at hrun
  obtain ⟨v',s₂,hrand,hrun⟩ := of_bind hrun
  obtain ⟨m,honRand,rfl⟩ := of_onMutator hrand
  obtain ⟨r,hvalid,rfl⟩ := of_onPart honRand
  cases hrun
  exact ⟨t,r,htree,hvalid,rfl⟩

theorem saveMutant_saves {p : Ptr} (hrun : saveMutant cfg syntaxOnly parse g p s = .ok ((),s')) :
    ∃ t, treeOf p s.mutator = .ok (t,s.mutator) ∧ Saves cfg parse g s t syntaxOnly s' := by
  cases syntaxOnly with
  | true =>
    rw [saveMutant, if_pos rfl] at hrun
    obtain ⟨t,s₁,hload,hoffer⟩ := of_bind hrun
    obtain ⟨htree,rfl⟩ := of_onTree hload
    refine ⟨t,htree,?_⟩
    by_cases hsmall : t.getChildNum ≤ 1500
    · rw [onlyIf, if_pos hsmall] at hoffer
      obtain ⟨b,s₂,hparsable,hpush⟩ := of_bind hoffer
      obtain ⟨m,hread,rfl⟩ := of_onMutator hparsable
      obtain ⟨root,m',htranslate,hsome⟩ := of_bind hread
      cases hsome
      rw [of_pushTestCase hpush]
      exact .read hsmall htranslate
    · rw [onlyIf, if_neg hsmall] at hoffer
      cases hoffer
      exact .large hsmall
  | false =>
    simp only [saveMutant, if_false, Bool.false_eq_true] at hrun
    obtain ⟨v,s₁,hvalidate,hpush⟩ := of_bind hrun
    obtain ⟨t,r,htree,hvalid,rfl⟩ := of_validateMutant hvalidate
    rw [of_pushTestCase hpush]
    exact ⟨t,htree,.validated hvalid⟩

theorem saveMutants_savesAll (hrun : saveMutants cfg syntaxOnly parse g ps s = .ok ((),s')) :
    ∃ ts, SavesAll cfg parse g syntaxOnly s ps ts s' := by
  induction ps generalizing s with
  | nil =>
    cases hrun
    exact ⟨[],.nil⟩
  | cons p ps ih =>
    obtain ⟨_,s₁,hfirst,hrun⟩ := of_bind hrun
    obtain ⟨t,htree,hsaves⟩ := saveMutant_saves hfirst
    obtain ⟨ts,hrest⟩ := ih hrun
    exact ⟨t :: ts,.cons htree hsaves hrest⟩

theorem Saves.moved (h : Saves cfg parse g s t syntaxOnly s') : Moved g s.mutator s'.mutator := by
  cases h with
  | large => exact Moved.refl _
  | read hsmall htranslate => exact ((translateText_decides _ _).of_run htranslate).moved
  | validated hvalidate => exact Moved.of_same (Extends.refl _) rfl rfl rfl

theorem SavesAll.moved (h : SavesAll cfg parse g syntaxOnly s ps ts s') : Moved g s.mutator s'.mutator := by
  induction h with
  | nil => exact Moved.refl _
  | cons _ h _ ih => exact h.moved.trans ih

/-- Trees that memory holds are the ones that are checked. -/
theorem SavesAll.trees (h : SavesAll cfg parse g syntaxOnly s (ms.map ptr) ts s') (hms : ∀ u ∈ ms, Holds s.mutator.heap u) :
    ts = ms.map vals := by
  induction ms generalizing s ts with
  | nil =>
    cases h
    rfl
  | cons u ms ih =>
    cases h with
    | @cons _ s₁ _ _ _ t ts htree hsaves hrest =>
      obtain ⟨hu,hothers⟩ := List.forall_mem_cons.mp hms
      have ht : t = vals u :=
        ((meets_treeOf (Q := fun t m => t = vals u ∧ m = s.mutator) hu ⟨rfl,rfl⟩).of_run htree).1
      have hts : ts = ms.map vals := ih hrest fun w hw => (hothers w hw).keep hsaves.moved.ext
      rw [ht, hts, List.map_cons]

/-- How a count went that returned. -/
theorem of_mutate (hrun : mutate cfg syntaxOnly parse g text s = .ok (n,s')) :
    ∃ root m, translateText parse g text s.mutator = .ok (root,m) ∧
      (root = none ∧ n = 0 ∧ s' = { s with mutator := m } ∨
        root ≠ none ∧ ∃ irs m₁, onHeap (collectAllIRs root) m = .ok (irs,m₁) ∧
          (irs.length > 1500 ∧ n = 0 ∧ s' = { s with mutator := m₁ } ∨
            irs.length ≤ 1500 ∧ ∃ ps m₂ ts, mutateIRsAt g irs m₁ = .ok (ps,m₂) ∧
              SavesAll cfg parse g syntaxOnly { s with mutator := m₂ } ps ts s' ∧ n = s'.saveTestCases.length)) := by
  obtain ⟨root,s₁,hfirst,hrun⟩ := of_bind hrun
  obtain ⟨m,htext,rfl⟩ := of_onMutator hfirst
  refine ⟨root,m,htext,?_⟩
  by_cases hnull : root = none
  · rw [if_pos hnull] at hrun
    cases hrun
    exact .inl ⟨hnull,rfl,rfl⟩
  · rw [if_neg hnull] at hrun
    obtain ⟨irs,s₂,hcollect,hrun⟩ := of_bind hrun
    obtain ⟨m₁,hirs,rfl⟩ := of_onMutator hcollect
    refine .inr ⟨hnull,irs,m₁,hirs,?_⟩
    by_cases hlarge : irs.length > 1500
    · rw [if_pos hlarge] at hrun
      cases hrun
      exact .inl ⟨hlarge,rfl,rfl⟩
    · rw [if_neg hlarge] at hrun
      obtain ⟨ps,s₃,hmutants,hrun⟩ := of_bind hrun
      obtain ⟨m₂,hmutate,rfl⟩ := of_onMutator hmutants
      obtain ⟨_,s₄,hsave,hrun⟩ := of_bind hrun
      cases hrun
      obtain ⟨ts,hsaves⟩ := saveMutants_savesAll hsave
      exact .inr ⟨not_lt.mp hlarge,ps,m₂,ts,hmutate,hsaves,rfl⟩

structure Mutants (g : Garbage) (lib : Shelves) (u : BinaryTree (ℕ × IRNode)) (m m' : Mutator) (irs : List Ptr)
    (ms : List (BinaryTree (ℕ × IRNode))) : Prop where
  collected : onHeap (collectAllIRs (ptr u)) m = .ok (irs,m)
  size : irs.length = IR.getChildNum (vals u)
  run : mutateIRsAt g irs m = .ok (ms.map ptr,m')
  mutated : Mutated g m.heap.next lib m m' (vals u) (ms.map ptr) ms
  moved : Moved g m m'

theorem exists_mutants (hinv : LibraryInv m lib) (hempty : EmptyOk m) (hu : Holds m.heap u) (hnodup : (addrs u).Nodup)
    (hne : u ≠ .nil) : ∃ irs ms m', Mutants g lib u m m' irs ms := by
  obtain ⟨irs,heap,hcollect,rfl,hpost⟩ := meets_collectAllIRs hu hne
  have hirs : onHeap (collectAllIRs (ptr u)) m = .ok (irs,m) := by simp only [onHeap, onPart, hcollect]
  have hsize : irs.length = IR.getChildNum (vals u) := by
    rw [hpost, List.length_map, BinaryTree.length_postorder, IR.getChildNum_eq, vals, BinaryTree.values_map, List.length_map]
  obtain ⟨ps,m',hrun,ms,hms⟩ := meets_mutateRoot (g := g) (hinv.ready hempty) hu hnodup hne
  rw [mutateRoot, run_bind, hirs] at hrun
  obtain rfl := hms.ptrs
  refine ⟨irs,ms,m',hirs,hsize,hrun,hms,hms.step.ext,fun h => h.elsewhere hms.step.ext hms.step.lists.1 hms.step.lists.2 ?_⟩
  rcases hms.step.ready.empty with hnone | ⟨e,n,he,hholds,hn⟩
  · exact .inl hnone
  · refine .inr ⟨.node (e,n) .nil .nil,he.symm,hholds,?_⟩
    rw [emptyIR_eq, vals_node, erase_node, hn]
    rfl

/-- What a count comes to: one without a root, and one with the mutants of it. -/
theorem mutate_none (htext : translateText parse g text s.mutator = .ok (none,m)) :
    mutate cfg syntaxOnly parse g text s = .ok (0,{ s with mutator := m }) := by
  rw [mutate, run_bind, onMutator_run htext]
  rfl

theorem mutate_mutants (htext : translateText parse g text s.mutator = .ok (ptr u,m)) (hne : u ≠ .nil)
    (h : Mutants g lib u m m' irs ms) : mutate cfg syntaxOnly parse g text s =
      if irs.length > 1500 then .ok (0,{ s with mutator := m })
      else (do saveMutants cfg syntaxOnly parse g (ms.map ptr); return (← get).saveTestCases.length : Fuzz ℕ)
        { s with mutator := m' } := by
  rw [mutate, run_bind, onMutator_run htext]
  dsimp only
  rw [if_neg (mt ptr_eq_none.mp hne), run_bind, onMutator_run h.collected]
  dsimp only
  split
  · rfl
  · rw [run_bind, onMutator_run h.run]

inductive Counts (cfg : Configuration) (syntaxOnly : Bool) (parse : Str → Option ParseTree) (g : Garbage) (text : Str)
    (lib : Shelves) (s : PolyGlotMutator) : ℕ → PolyGlotMutator → Prop
  | nothing {root : Ptr} {m : Mutator} (hread : TextRead parse g text s.mutator m root) :
      Counts cfg syntaxOnly parse g text lib s 0 { s with mutator := m }
  | mutants {t : ParseTree} {u : BinaryTree (ℕ × IRNode)} {id' : StatementID} {m m' : Mutator} {irs : List Ptr}
      {ms : List (BinaryTree (ℕ × IRNode))} {s' : PolyGlotMutator} (hread : TextRead parse g text s.mutator m (ptr u))
      (ht : parse text = some t) (htranslate : translateNode g.scopeId t s.mutator.idCounter = .ok (some (vals u),id'))
      (hne : u ≠ .nil) (hmutants : Mutants g lib u m m' irs ms) (hsmall : irs.length ≤ 1500)
      (hsaves : SavesAll cfg parse g syntaxOnly { s with mutator := m' } (ms.map ptr) (ms.map vals) s') :
      Counts cfg syntaxOnly parse g text lib s s'.saveTestCases.length s'

theorem mutate_counts (h : LibraryRun g (fun _ => True) s.mutator) (hinv : LibraryInv s.mutator lib)
    (hrun : mutate cfg syntaxOnly parse g text s = .ok (n,s')) : Counts cfg syntaxOnly parse g text lib s n s' := by
  obtain ⟨root,m,htext,hrest⟩ := of_mutate hrun
  have hread := (translateText_decides text s.mutator).of_run htext
  rcases hrest with ⟨-,rfl,rfl⟩ | ⟨hnull,irs,m₁,hirs,hrest⟩
  · exact .nothing hread
  · obtain ⟨t,u,id',ht,htranslate,hnew,rfl,hne⟩ := hread.tree hnull
    obtain ⟨_,_,_,hempty⟩ := (hread.moved.run h).inv
    obtain ⟨irs',ms,m',hmutants⟩ := exists_mutants (g := g) (hread.inv hinv) hempty hnew.holds hnew.nodup hne
    obtain ⟨rfl,rfl⟩ := Prod.mk.inj (Except.ok.inj (hirs.symm.trans hmutants.collected))
    rcases hrest with ⟨-,rfl,rfl⟩ | ⟨hsmall,ps,m₂,ts,hmutate,hsaves,rfl⟩
    · exact .nothing hread
    · obtain ⟨rfl,rfl⟩ := Prod.mk.inj (Except.ok.inj (hmutate.symm.trans hmutants.run))
      obtain rfl := hsaves.trees hmutants.mutated.holds
      exact .mutants hread ht htranslate hne hmutants hsmall hsaves

theorem Counts.moved (h : Counts cfg syntaxOnly parse g text lib s n s') : Moved g s.mutator s'.mutator := by
  cases h with
  | nothing hread => exact hread.moved
  | mutants hread _ _ _ hmutants _ hsaves => exact (hread.moved.trans hmutants.moved).trans hsaves.moved

theorem Counts.length (h : Counts cfg syntaxOnly parse g text lib s n s') (hempty : s.saveTestCases = []) :
    n = s'.saveTestCases.length := by
  cases h with
  | nothing => exact (congrArg List.length hempty).symm
  | mutants => rfl

/-- In `s` the checks of the mutants of the text return. -/
def MutantsSaved (cfg : Configuration) (syntaxOnly : Bool) (parse : Str → Option ParseTree) (g : Garbage) (text : Str)
    (s : PolyGlotMutator) : Prop :=
  ∀ root s₁ irs s₂ ps s₃, onMutator (translateText parse g text) s = .ok (root,s₁) → root ≠ none →
    onMutator (onHeap (collectAllIRs root)) s₁ = .ok (irs,s₂) → irs.length ≤ 1500 →
    onMutator (mutateIRsAt g irs) s₂ = .ok (ps,s₃) → ∃ s₄, saveMutants cfg syntaxOnly parse g ps s₃ = .ok ((),s₄)

theorem mutantsSaved_none (htext : translateText parse g text s.mutator = .ok (none,m)) :
    MutantsSaved cfg syntaxOnly parse g text s := by
  intro root s₁ irs s₂ ps s₃ hroot hne
  rw [onMutator_run htext] at hroot
  cases hroot
  exact absurd rfl hne

theorem mutantsSaved_iff (htext : translateText parse g text s.mutator = .ok (ptr u,m)) (hne : u ≠ .nil)
    (h : Mutants g lib u m m' irs ms) : MutantsSaved cfg syntaxOnly parse g text s ↔
      (irs.length ≤ 1500 → ∃ s', saveMutants cfg syntaxOnly parse g (ms.map ptr) { s with mutator := m' } = .ok ((),s')) := by
  constructor
  · intro hsaved hsmall
    exact hsaved _ _ _ _ _ _ (onMutator_run htext) (mt ptr_eq_none.mp hne) (onMutator_run h.collected) hsmall
      (onMutator_run h.run)
  · intro hsaved root s₁ irs' s₂ ps s₃ hroot _ hirs hsmall hmutate
    rw [onMutator_run htext] at hroot
    cases hroot
    rw [onMutator_run h.collected] at hirs
    cases hirs
    rw [onMutator_run h.run] at hmutate
    cases hmutate
    exact hsaved hsmall

theorem mutate_isOk_iff (h : LibraryRun g (fun _ => True) s.mutator) : (∃ r, mutate cfg syntaxOnly parse g text s = .ok r) ↔
    Translates parse g text s.mutator ∧ MutantsSaved cfg syntaxOnly parse g text s := by
  by_cases htranslates : Translates parse g text s.mutator
  · rw [and_iff_right htranslates]
    obtain ⟨root,m,htext,hread⟩ := (translateText_decides text s.mutator).meets htranslates
    by_cases hnull : root = none
    · subst hnull
      exact iff_of_true ⟨_,mutate_none htext⟩ (mutantsSaved_none htext)
    · obtain ⟨t,u,id',_,_,hnew,rfl,hne⟩ := hread.tree hnull
      obtain ⟨lib,hinv,_,hempty⟩ := (hread.moved.run h).inv
      obtain ⟨irs,ms,m',hmutants⟩ := exists_mutants (g := g) hinv hempty hnew.holds hnew.nodup hne
      rw [mutate_mutants htext hne hmutants, mutantsSaved_iff htext hne hmutants]
      by_cases hlarge : irs.length > 1500
      · rw [if_pos hlarge]
        exact iff_of_true ⟨_,rfl⟩ fun hsmall => absurd hsmall (not_le.mpr hlarge)
      · rw [if_neg hlarge, forall_prop_of_true (not_lt.mp hlarge)]
        constructor
        · rintro ⟨r,hrun⟩
          obtain ⟨_,s₁,hsave,-⟩ := of_bind hrun
          exact ⟨s₁,hsave⟩
        · rintro ⟨s₁,hsave⟩
          exact ⟨_,by rw [run_bind, hsave]; rfl⟩
  · obtain ⟨e,he⟩ := (translateText_decides text s.mutator).fails htranslates
    refine iff_of_false ?_ fun hboth => htranslates hboth.1
    rintro ⟨r,hrun⟩
    obtain ⟨root,m,htext,-⟩ := of_mutate hrun
    rw [he] at htext
    cases htext

theorem mutate_decides (text : Str) (h : LibraryRun g (fun _ => True) s.mutator) (hempty : s.saveTestCases = []) :
    Decides (mutate cfg syntaxOnly parse g text) s
      (Translates parse g text s.mutator ∧ MutantsSaved cfg syntaxOnly parse g text s)
      fun n s' => Moved g s.mutator s'.mutator ∧ n = s'.saveTestCases.length := by
  obtain ⟨lib,hinv,-,-⟩ := h.inv
  refine ((Decides.returns _ _).iff ?_).congr Iff.rfl ?_
  · rw [← mutate_isOk_iff h]
    exact ⟨fun ⟨a,t,hrun⟩ => ⟨(a,t),hrun⟩,fun ⟨r,hrun⟩ => ⟨r.1,r.2,hrun⟩⟩
  · intro _ n s' hrun
    have hcounts := mutate_counts h hinv hrun
    exact ⟨hcounts.moved,hcounts.length hempty⟩

end

end PolyGlot
