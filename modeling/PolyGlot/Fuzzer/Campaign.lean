import PolyGlot.Fuzzer.Callbacks
import PolyGlot.Mutation.Novelty

set_option autoImplicit false

/-! # Campaigns

The host makes callbacks in any order. It may give up an input early, but takes
no more test cases than the last count announced. A schedule lists the last
callback first.
-/
namespace PolyGlot

open TreeHeap Prog

inductive Callback
  | queueNewEntry (content : Str)
  | fuzzCount (buf : Str)
  | fuzz

section
variable (cfg : Configuration) (syntaxOnly : Bool) (parse : Str → Option ParseTree) (g : Garbage)

/-- A callback that returns, with what it did to the test cases and how many may
be taken before and after it. -/
inductive Performs (left : ℕ) (s : PolyGlotMutator) : Callback → Handout.Event Str → ℕ → PolyGlotMutator → Prop
  | queueNewEntry {content : Str} {s' : PolyGlotMutator} (hrun : aflCustomQueueNewEntry parse g content s = .ok ((),s')) :
      Performs left s (.queueNewEntry content) .other left s'
  | fuzzCount {buf : Str} {n : ℕ} {s' : PolyGlotMutator}
      (hrun : aflCustomFuzzCount cfg syntaxOnly parse g buf s = .ok (n,s')) :
      Performs left s (.fuzzCount buf) (.refill s'.saveTestCases) n s'
  | fuzz {text : Str} {s' : PolyGlotMutator} (hrun : aflCustomFuzz s = .ok (text,s')) :
      Performs left s .fuzz (.hand text) (left - 1) s'

inductive Campaign (start : PolyGlotMutator) : List Callback → List (Handout.Event Str) → ℕ → PolyGlotMutator → Prop
  | start : Campaign start [] [] 0 start
  | callback {cs : List Callback} {es : List (Handout.Event Str)} {left left' : ℕ} {s s' : PolyGlotMutator} {c : Callback}
      {e : Handout.Event Str} (h : Campaign start cs es left s) (hc : Performs cfg syntaxOnly parse g left s c e left' s') :
      Campaign start (c :: cs) (e :: es) left' s'

def Permitted (left : ℕ) (c : Callback) : Prop := c = .fuzz → 0 < left

/-- A count comes once all test cases were taken, and what the callback calls
returns. -/
def Spared (left : ℕ) (s : PolyGlotMutator) : Callback → Prop
  | .queueNewEntry content => Translates parse g (cStr content) s.mutator
  | .fuzzCount buf => left = 0 ∧ Translates parse g (cStr buf) s.mutator ∧ MutantsSaved cfg syntaxOnly parse g (cStr buf) s
  | .fuzz => True

end

section
variable {cfg : Configuration} {syntaxOnly : Bool} {parse : Str → Option ParseTree} {g : Garbage}
  {start : PolyGlotMutator} {calls cs : List Callback} {es : List (Handout.Event Str)} {left : ℕ} {s : PolyGlotMutator}
  {c : Callback}

structure Between (g : Garbage) (es : List (Handout.Event Str)) (left : ℕ) (s : PolyGlotMutator) : Prop where
  stack : Handout.Run es s.saveTestCases
  left : left = s.saveTestCases.length
  library : LibraryRun g (fun _ => True) s.mutator

theorem aflCustomQueueNewEntry_decides (content : Str) (h : Between g es left s) :
    Decides (aflCustomQueueNewEntry parse g content) s (Translates parse g (cStr content) s.mutator)
      fun _ s' => Between g (.other :: es) left s' := by
  refine (addTextToIRLibrary_decides (cStr content) h.library).onPart fun _ m hmoved => ?_
  exact ⟨h.stack.step .other,h.left,hmoved.run h.library⟩

theorem aflCustomFuzzCount_decides (buf : Str) (h : Between g es left s) :
    Decides (aflCustomFuzzCount cfg syntaxOnly parse g buf) s (Spared cfg syntaxOnly parse g left s (.fuzzCount buf))
      fun n s' => Between g (.refill s'.saveTestCases :: es) n s' := by
  have hleft : left = 0 ↔ s.saveTestCases = [] := by rw [h.left, List.length_eq_zero_iff]
  unfold Spared
  rw [hleft]
  apply Decides.get_bind
  apply Decides.assertThat.bind
  rintro _ s' hempty rfl
  refine (mutate_decides (cStr buf) h.library hempty).congr Iff.rfl ?_
  rintro _ n s' ⟨hmoved,hn⟩
  exact ⟨.step (hempty ▸ h.stack) .refill,hn,hmoved.run h.library⟩

theorem aflCustomFuzz_meets (h : Between g es left s) (hleft : 0 < left) :
    Meets aflCustomFuzz s fun text s' => Between g (.hand text :: es) (left - 1) s' := by
  have hne : s.saveTestCases ≠ [] := by
    intro hnil
    rw [h.left, hnil] at hleft
    exact Nat.lt_irrefl _ hleft
  have hlast : s.saveTestCases.dropLast ++ [s.saveTestCases.getLastD []] = s.saveTestCases := by
    rw [List.getLastD_eq_getLast?, List.getLast?_eq_some_getLast hne, Option.getD_some, List.dropLast_append_getLast hne]
  have hrun : aflCustomFuzz s = .ok (s.saveTestCases.getLastD [],
      { s with currentInput := s.saveTestCases.getLastD [], saveTestCases := s.saveTestCases.dropLast }) := by
    simp only [aflCustomFuzz, getNextMutatedTestCase, run_get_bind, assertThat, if_pos hne]
    rfl
  refine ⟨_,_,hrun,?_,?_,h.library⟩
  · apply Handout.Run.step h.stack
    have hstep : Handout.Step (s.saveTestCases.dropLast ++ [s.saveTestCases.getLastD []])
        (.hand (s.saveTestCases.getLastD [])) s.saveTestCases.dropLast := .hand
    rwa [hlast] at hstep
  · rw [h.left, List.length_dropLast]

theorem Performs.between {e : Handout.Event Str} {left' : ℕ} {s' : PolyGlotMutator} (h : Between g es left s)
    (hpermitted : Permitted left c) (hc : Performs cfg syntaxOnly parse g left s c e left' s') :
    Between g (e :: es) left' s' := by
  cases hc with
  | queueNewEntry hrun => exact (aflCustomQueueNewEntry_decides _ h).of_run hrun
  | fuzzCount hrun => exact (aflCustomFuzzCount_decides _ h).of_run hrun
  | fuzz hrun => exact (aflCustomFuzz_meets h (hpermitted rfl)).of_run hrun

theorem performs_iff (h : Between g es left s) (hpermitted : Permitted left c) :
    (∃ e left' s', Performs cfg syntaxOnly parse g left s c e left' s') ↔ Spared cfg syntaxOnly parse g left s c := by
  cases c with
  | queueNewEntry content =>
    rw [Spared, ← (aflCustomQueueNewEntry_decides content h).isOk_iff]
    constructor
    · rintro ⟨_,_,_,⟨hrun⟩⟩
      exact ⟨_,hrun⟩
    · rintro ⟨⟨⟨⟩,s'⟩,hrun⟩
      exact ⟨_,_,_,.queueNewEntry hrun⟩
  | fuzzCount buf =>
    rw [← (aflCustomFuzzCount_decides buf h).isOk_iff]
    constructor
    · rintro ⟨_,_,_,hc⟩
      cases hc with
      | fuzzCount hrun => exact ⟨_,hrun⟩
    · rintro ⟨⟨n,s'⟩,hrun⟩
      exact ⟨_,_,_,.fuzzCount hrun⟩
  | fuzz =>
    obtain ⟨text,s',hrun,_⟩ := aflCustomFuzz_meets h (hpermitted rfl)
    exact iff_of_true ⟨_,_,_,.fuzz hrun⟩ trivial

/-- The host keeps to its rule in every schedule of this kind. -/
def HostObeys (cfg : Configuration) (syntaxOnly : Bool) (parse : Str → Option ParseTree) (g : Garbage)
    (start : PolyGlotMutator) (calls : List Callback) : Prop :=
  ∀ c cs, c :: cs <:+ calls → ∀ es left s, Campaign cfg syntaxOnly parse g start cs es left s → Permitted left c

theorem HostObeys.of_suffix (h : HostObeys cfg syntaxOnly parse g start calls) (hcs : cs <:+ calls) :
    HostObeys cfg syntaxOnly parse g start cs := fun c cs' hc => h c cs' (hc.trans hcs)

theorem Campaign.between (hempty : start.saveTestCases = []) (hlibrary : LibraryRun g (fun _ => True) start.mutator)
    (hhost : HostObeys cfg syntaxOnly parse g start calls) (h : Campaign cfg syntaxOnly parse g start calls es left s) :
    Between g es left s := by
  induction h with
  | start => exact ⟨hempty ▸ .start,by rw [hempty]; rfl,hlibrary⟩
  | @callback cs es left left' s s' c e h hc ih =>
    have hbefore := ih (hhost.of_suffix (List.suffix_cons c cs))
    exact hc.between hbefore (hhost c cs List.suffix_rfl es left s h)

theorem Performs.unique {e e' : Handout.Event Str} {left₁ left₂ : ℕ} {s₁ s₂ : PolyGlotMutator}
    (h : Performs cfg syntaxOnly parse g left s c e left₁ s₁) (h' : Performs cfg syntaxOnly parse g left s c e' left₂ s₂) :
    e = e' ∧ left₁ = left₂ ∧ s₁ = s₂ := by
  cases h with
  | queueNewEntry hrun =>
    cases h' with
    | queueNewEntry hrun' =>
      rw [hrun] at hrun'
      cases hrun'
      exact ⟨rfl,rfl,rfl⟩
  | fuzzCount hrun =>
    cases h' with
    | fuzzCount hrun' =>
      rw [hrun] at hrun'
      cases hrun'
      exact ⟨rfl,rfl,rfl⟩
  | fuzz hrun =>
    cases h' with
    | fuzz hrun' =>
      rw [hrun] at hrun'
      cases hrun'
      exact ⟨rfl,rfl,rfl⟩

theorem Campaign.unique {es' : List (Handout.Event Str)} {left' : ℕ} {s' : PolyGlotMutator}
    (h : Campaign cfg syntaxOnly parse g start calls es left s)
    (h' : Campaign cfg syntaxOnly parse g start calls es' left' s') : es = es' ∧ left = left' ∧ s = s' := by
  induction h generalizing es' left' s' with
  | start =>
    cases h'
    exact ⟨rfl,rfl,rfl⟩
  | callback h hc ih =>
    cases h' with
    | callback h' hc' =>
      obtain ⟨rfl,rfl,rfl⟩ := ih h'
      obtain ⟨rfl,rfl,rfl⟩ := hc.unique hc'
      exact ⟨rfl,rfl,rfl⟩

/-- In a campaign every callback returned from where the ones before it led. -/
theorem Campaign.performs {es' : List (Handout.Event Str)} {left' : ℕ} {s' : PolyGlotMutator}
    (h : Campaign cfg syntaxOnly parse g start calls es left s) (hc : c :: cs <:+ calls)
    (h' : Campaign cfg syntaxOnly parse g start cs es' left' s') :
    ∃ e left₁ s₁, Performs cfg syntaxOnly parse g left' s' c e left₁ s₁ := by
  induction h with
  | start => cases List.suffix_nil.mp hc
  | callback h hlast ih =>
    rcases List.suffix_cons_iff.mp hc with heq | hc
    · cases heq
      obtain ⟨rfl,rfl,rfl⟩ := h.unique h'
      exact ⟨_,_,_,hlast⟩
    · exact ih hc

/-- A schedule runs to its end if and only if, whenever it makes a count, all
test cases of the count before were taken, and the translations and checks that
its callbacks ask for return. In every run the test cases of the last count are
handed out, one after the other. -/
theorem schedule_returns_iff (hempty : start.saveTestCases = []) (hlibrary : LibraryRun g (fun _ => True) start.mutator)
    (hhost : HostObeys cfg syntaxOnly parse g start calls) :
    ((∃ es left s, Campaign cfg syntaxOnly parse g start calls es left s) ↔
      ∀ c cs, c :: cs <:+ calls → ∀ es left s, Campaign cfg syntaxOnly parse g start cs es left s →
        Spared cfg syntaxOnly parse g left s c) ∧
    ∀ es left s, Campaign cfg syntaxOnly parse g start calls es left s → Handout.InOrder es := by
  refine ⟨⟨?_,?_⟩,fun es left s h => (h.between hempty hlibrary hhost).stack.inOrder⟩
  · rintro ⟨_,_,_,h⟩ c cs hc es left s hcs
    have hbetween := hcs.between hempty hlibrary (hhost.of_suffix ((List.suffix_cons c cs).trans hc))
    exact (performs_iff hbetween (hhost c cs hc es left s hcs)).mp (h.performs hc hcs)
  · intro hspared
    induction calls with
    | nil => exact ⟨_,_,_,.start⟩
    | cons c cs ih =>
      have hbefore := List.suffix_cons c cs
      obtain ⟨es,left,s,h⟩ := ih (hhost.of_suffix hbefore) fun c' cs' hc => hspared c' cs' (hc.trans hbefore)
      have hbetween := h.between hempty hlibrary (hhost.of_suffix hbefore)
      have hlast := hspared c cs List.suffix_rfl es left s h
      obtain ⟨e,left',s',hc⟩ := (performs_iff hbetween (hhost c cs List.suffix_rfl es left s h)).mpr hlast
      exact ⟨_,_,_,.callback h hc⟩

end

def parseParens (text : Str) : Option ParseTree := if text = "(x)".toList then some parenProgram else none

def fresh : PolyGlotMutator := ⟨Mutator.start Heap.empty (Stream'.const 0),.initial,[],[]⟩

theorem fresh_between : Between zeroed [] 0 fresh := ⟨.start,rfl,Mutator.start_run ..⟩

theorem parens_counted : ∃ s, aflCustomFuzzCount (intConfig true) false parseParens zeroed "(x)".toList fresh = .ok (1,s) := by
  have hcount : (aflCustomFuzzCount (intConfig true) false parseParens zeroed "(x)".toList fresh).map Prod.fst = .ok 1 := by
    decide +kernel
  cases hrun : aflCustomFuzzCount (intConfig true) false parseParens zeroed "(x)".toList fresh with
  | error f =>
    rw [hrun] at hcount
    cases hcount
  | ok r =>
    rw [hrun] at hcount
    exact ⟨r.2,by rw [← Except.ok.inj hcount]⟩

theorem takenInput_returns : ∃ es left s, Campaign (intConfig true) false parseParens zeroed fresh
    [.fuzz,.fuzzCount "(x)".toList] es left s ∧ Handout.InOrder es := by
  obtain ⟨s₁,hcount⟩ := parens_counted
  have hfirst : Campaign (intConfig true) false parseParens zeroed fresh [.fuzzCount "(x)".toList] _ 1 s₁ :=
    .callback .start (.fuzzCount hcount)
  have hhost : HostObeys (intConfig true) false parseParens zeroed fresh [.fuzz,.fuzzCount "(x)".toList] := by
    intro c cs hc es left s h hfuzz
    subst hfuzz
    rcases List.suffix_cons_iff.mp hc with heq | hc
    · cases heq
      rw [← (hfirst.unique h).2.1]
      exact Nat.one_pos
    · rcases List.suffix_cons_iff.mp hc with heq | hc
      · cases heq
      · cases List.suffix_nil.mp hc
  obtain ⟨hreturns,horder⟩ := schedule_returns_iff rfl (Mutator.start_run ..) hhost
  obtain ⟨es,left,s,h⟩ := hreturns.mpr fun c cs hc es left s h => by
    rcases List.suffix_cons_iff.mp hc with heq | hc
    · cases heq
      exact trivial
    · rcases List.suffix_cons_iff.mp hc with heq | hc
      · cases heq
        cases h
        exact (performs_iff fresh_between fun hfuzz => by cases hfuzz).mp ⟨_,_,_,.fuzzCount hcount⟩
      · cases List.suffix_nil.mp hc
  exact ⟨es,left,s,h,horder es left s h⟩

/-- The second count finds the test case that was not taken. -/
theorem abandonedInput_fails : ∃ calls, HostObeys (intConfig true) false parseParens zeroed fresh calls ∧
    ∃ cs buf es left s, calls = .fuzzCount buf :: cs ∧ Campaign (intConfig true) false parseParens zeroed fresh cs es left s ∧
      aflCustomFuzzCount (intConfig true) false parseParens zeroed buf s = .error .assertion := by
  obtain ⟨s₁,hcount⟩ := parens_counted
  refine ⟨[.fuzzCount "(x)".toList,.fuzzCount "(x)".toList],?_,_,_,_,_,s₁,rfl,.callback .start (.fuzzCount hcount),?_⟩
  · intro c cs hc es left s h hfuzz
    subst hfuzz
    rcases List.suffix_cons_iff.mp hc with heq | hc
    · cases heq
    · rcases List.suffix_cons_iff.mp hc with heq | hc
      · cases heq
      · cases List.suffix_nil.mp hc
  · have hleft := ((aflCustomFuzzCount_decides _ fresh_between).of_run hcount).left
    have hne : s₁.saveTestCases ≠ [] := by
      intro hnil
      rw [hnil] at hleft
      cases hleft
    simp only [aflCustomFuzzCount, run_get_bind, assertThat, if_neg hne]
    rfl

end PolyGlot
