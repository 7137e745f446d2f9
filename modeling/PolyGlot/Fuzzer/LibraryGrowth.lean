import PolyGlot.Fuzzer.Fixing
import PolyGlot.Mutation.Availability

set_option autoImplicit false

/-! # The library over a campaign

An addition makes room only where an entry comes, and nothing else touches the
library. So no list ever gets shorter, and a type that has entries keeps some.
-/
namespace PolyGlot

open BinaryTree TreeHeap Prog KeyedList

theorem swapPop_length {α : Type} {v : List α} {idx : ℕ} (h : idx < v.length) : (swapPop v idx).length + 1 = v.length := by
  have hperm := (swapPop_perm h).length_eq
  rwa [List.length_cons] at hperm

theorem length_makeRoom (es : List IR) (r : Rand) : es.length ≤ (makeRoom es r).1.length + 1 := by
  unfold makeRoom
  split
  · rename_i hfull
    have hpos : 0 < es.length := Nat.lt_of_lt_of_le (by decide) hfull
    exact (swapPop_length (Nat.mod_lt _ hpos)).ge
  · exact Nat.le_succ _

theorem length_le_saveIR (t : IR) (s : Entries × Rand) (T : IRType) : (s.1 T).length ≤ ((saveIR t s).1 T).length := by
  induction t generalizing s with
  | nil => exact le_rfl
  | node n l r ihl ihr =>
    rw [saveIR]
    split
    · exact le_rfl
    · refine le_trans ?_ ((ihl _).trans (ihr _))
      dsimp only
      by_cases hT : T = n.type
      · subst hT
        rw [Function.update_self, List.length_append]
        exact length_makeRoom _ _
      · rw [Function.update_of_ne hT]

section
variable {cfg : Configuration} {syntaxOnly : Bool} {parse : Str → Option ParseTree} {g : Garbage} {m m' : Mutator}
  {s s' : PolyGlotMutator}

def Mutator.stock (m : Mutator) (T : IRType) : ℕ := (m.irLibrary T).length

theorem stock_congr (h : m'.irLibrary = m.irLibrary) : m'.stock = m.stock := by
  funext T
  rw [Mutator.stock, h]
  rfl

theorem LibraryInv.stock_eq {lib : Shelves} (h : LibraryInv m lib) (T : IRType) : m.stock T = (lib.erased T).length := by
  rw [Mutator.stock, h.entries, Shelves.erased, List.length_map, List.length_map]

theorem addTextToIRLibrary_stock (h : LibraryRun g (fun _ => True) m) (text : Str) :
    Attains (addTextToIRLibrary parse g text) m fun _ m' => m.stock ≤ m'.stock := by
  obtain ⟨lib,hinv,-,-⟩ := h.inv
  unfold addTextToIRLibrary
  cases parse text with
  | none => exact Attains.pure le_rfl
  | some t =>
    constructor
    intro _ m' hrun
    dsimp only at hrun
    cases ht : translateNode g.scopeId t m.idCounter with
    | error e =>
      rw [addToIRLibrary, run_bind, translateToIR, ht] at hrun
      cases hrun
    | ok r =>
      obtain ⟨_ | ir,id'⟩ := r
      · rw [addToIRLibrary, run_bind, translateToIR, ht] at hrun
        cases hrun
        exact le_rfl
      · obtain ⟨lib',hinv',hsaved⟩ := (meets_addToIRLibrary_erased hinv ht).of_run hrun
        intro T
        have hsaved' : lib'.erased = (saveIR (extracted ir) (lib.erased,m.rand)).1 := congrArg Prod.fst hsaved
        rw [hinv.stock_eq, hinv'.stock_eq, hsaved']
        exact length_le_saveIR _ (lib.erased,m.rand) T

theorem Saves.entries {t : IR} (h : Saves cfg parse g s t syntaxOnly s') : s'.mutator.irLibrary = s.mutator.irLibrary := by
  cases h with
  | large => rfl
  | read _ htranslate => exact ((translateText_decides _ _).of_run htranslate).lists.1
  | validated => rfl

theorem SavesAll.entries {ps : List Ptr} {ts : List IR} (h : SavesAll cfg parse g syntaxOnly s ps ts s') :
    s'.mutator.irLibrary = s.mutator.irLibrary := by
  induction h with
  | nil => rfl
  | cons _ h _ ih => exact ih.trans h.entries

theorem Counts.entries {text : Str} {lib : Shelves} {n : ℕ} (h : Counts cfg syntaxOnly parse g text lib s n s') :
    s'.mutator.irLibrary = s.mutator.irLibrary := by
  cases h with
  | nothing hread => exact hread.lists.1
  | mutants hread _ _ _ hmutants _ hsaves =>
    exact (hsaves.entries.trans hmutants.mutated.step.lists.1).trans hread.lists.1

theorem Performs.stock_le {left left' : ℕ} {c : Callback} {e : Handout.Event Str}
    (h : LibraryRun g (fun _ => True) s.mutator) (hc : Performs cfg syntaxOnly parse g left s c e left' s') :
    s.mutator.stock ≤ s'.mutator.stock := by
  cases hc with
  | queueNewEntry hrun =>
    obtain ⟨m,hadd,rfl⟩ := of_onMutator hrun
    exact (addTextToIRLibrary_stock h _).of_run _ _ hadd
  | fuzzCount hrun =>
    obtain ⟨-,hmutate⟩ := of_fuzzCount hrun
    obtain ⟨lib,hinv,-,-⟩ := h.inv
    exact (stock_congr (mutate_counts h hinv hmutate).entries).ge
  | fuzz hrun =>
    rw [aflCustomFuzz, getNextMutatedTestCase, run_get_bind] at hrun
    obtain ⟨_,_,hassert,hrun⟩ := of_bind hrun
    obtain ⟨-,rfl⟩ := Attains.assertThat.of_run _ _ hassert
    cases hrun
    exact le_rfl

/-- In every campaign, in either mode, no list of the library gets shorter and
none is longer than the limit. -/
theorem campaign_stock_le {calls : List Callback} {es : List (Handout.Event Str)} {left : ℕ}
    (h : LibraryRun g (fun _ => True) s.mutator) (hempty : s.saveTestCases = [])
    (hc : Campaign cfg syntaxOnly parse g s calls es left s') (T : IRType) :
    s.mutator.stock T ≤ s'.mutator.stock T ∧ s'.mutator.stock T ≤ kMaxIRNumForOneType := by
  have hgrows : s.mutator.stock ≤ s'.mutator.stock := by
    induction hc with
    | start => exact le_rfl
    | callback hc hlast ih => exact ih.trans (hlast.stock_le (hc.state h hempty).1)
  obtain ⟨lib,hinv,-,-⟩ := (hc.state h hempty).1.inv
  obtain ⟨ts,hts,hlimit,-⟩ := hinv.ok T
  refine ⟨hgrows T,?_⟩
  rw [Mutator.stock, hts.length_eq]
  exact hlimit

/-- The program is added twice, with a count in between. -/
theorem parens_stock_le : ∃ s₁ es s', Campaign (intConfig true) false parseParens zeroed fresh
    [.queueNewEntry "(x)".toList] [.other] 0 s₁ ∧ s₁.mutator.stock 1 = 1 ∧
      Campaign (intConfig true) false parseParens zeroed s₁ [.queueNewEntry "(x)".toList,.fuzzCount "(x)".toList] es 1 s' ∧
      s₁.mutator.stock 1 ≤ s'.mutator.stock 1 ∧ s'.mutator.stock 1 ≤ kMaxIRNumForOneType := by
  have hadded : (aflCustomQueueNewEntry parseParens zeroed "(x)".toList fresh).map (fun r => r.2.mutator.stock 1) = .ok 1 := by
    decide +kernel
  have hruns : ((do
      aflCustomQueueNewEntry parseParens zeroed "(x)".toList
      let n ← aflCustomFuzzCount (intConfig true) false parseParens zeroed "(x)".toList
      aflCustomQueueNewEntry parseParens zeroed "(x)".toList
      return n : Fuzz ℕ) fresh).map Prod.fst = .ok 1 := by
    decide +kernel
  cases hrun : (do
      aflCustomQueueNewEntry parseParens zeroed "(x)".toList
      let n ← aflCustomFuzzCount (intConfig true) false parseParens zeroed "(x)".toList
      aflCustomQueueNewEntry parseParens zeroed "(x)".toList
      return n : Fuzz ℕ) fresh with
  | error f =>
    rw [hrun] at hruns
    cases hruns
  | ok r =>
    obtain ⟨n,s'⟩ := r
    rw [hrun] at hruns
    obtain rfl : n = 1 := Except.ok.inj hruns
    obtain ⟨_,s₁,hfirst,hrun⟩ := of_bind hrun
    obtain ⟨n,s₂,hcount,hrun⟩ := of_bind hrun
    obtain ⟨_,s₃,hsecond,hrun⟩ := of_bind hrun
    cases hrun
    rw [hfirst] at hadded
    have hc : Campaign (intConfig true) false parseParens zeroed fresh [.queueNewEntry "(x)".toList] [.other] 0 s₁ :=
      .callback .start (.queueNewEntry hfirst)
    obtain ⟨hlibrary,hleft⟩ := hc.state (Mutator.start_run ..) rfl
    have hc' : Campaign (intConfig true) false parseParens zeroed s₁ [.queueNewEntry "(x)".toList,.fuzzCount "(x)".toList] _ 1 s' :=
      .callback (.callback .start (.fuzzCount hcount)) (.queueNewEntry hsecond)
    obtain ⟨hgrows,hlimit⟩ := campaign_stock_le hlibrary (List.eq_nil_of_length_eq_zero hleft.symm) hc' 1
    exact ⟨s₁,_,s',hc,Except.ok.inj hadded,hc',hgrows,hlimit⟩

end

end PolyGlot
