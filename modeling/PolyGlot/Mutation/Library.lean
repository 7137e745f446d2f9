import PolyGlot.Mutation.Copying
import PolyGlot.Antlr.Fold

set_option autoImplicit false

/-! # The library keeps its invariant

An entry is described by the tree that its pointer leads to. `SaveIRRecursive`
keeps the lists bounded, free of duplicates and in step with the sets of hashes;
a later call works on cells of its own and leaves the entries as they are.
-/
namespace PolyGlot

open BinaryTree TreeHeap Prog KeyedList

abbrev Shelves := IRType → List (BinaryTree (ℕ × IRNode))

def entryHash (t : BinaryTree (ℕ × IRNode)) : UInt64 := IR.hash (vals t)

structure LibraryInv (s : Mutator) (lib : Shelves) : Prop where
  entries : ∀ T, s.irLibrary T = (lib T).map ptr
  holds : ∀ T, ∀ t ∈ lib T, Holds s.heap t
  type : ∀ T, ∀ t ∈ lib T, IR.type? (vals t) = some T
  tracked : ∀ T, Tracked entryHash kMaxIRNumForOneType (lib T) (s.irLibraryHash T)

structure SameMemory (s s' : Mutator) : Prop where
  heap : s'.heap = s.heap
  emptyIr : s'.emptyIr = s.emptyIr

structure Saved (s s' : Mutator) (lib lib' : Shelves) (t : BinaryTree (ℕ × IRNode)) : Prop where
  inv : LibraryInv s' lib'
  memory : SameMemory s s'
  entries : ∀ T, ∀ u ∈ lib' T, u ∈ lib T ∨ ∃ p, t.subtreeAt p = u

theorem Saved.refl {s : Mutator} {lib : Shelves} (h : LibraryInv s lib) (t : BinaryTree (ℕ × IRNode)) :
    Saved s s lib lib t := ⟨h,⟨rfl,rfl⟩,fun _ _ hu => .inl hu⟩

theorem Saved.child {s s' : Mutator} {lib lib' : Shelves} {t : BinaryTree (ℕ × IRNode)} {sd : Side}
    (h : Saved s s' lib lib' (t.child sd)) : Saved s s' lib lib' t :=
  ⟨h.inv,h.memory,fun T u hu => (h.entries T u hu).imp id fun ⟨p,hp⟩ => ⟨sd :: p,hp⟩⟩

theorem Saved.trans {s₁ s₂ s₃ : Mutator} {lib₁ lib₂ lib₃ : Shelves} {t : BinaryTree (ℕ × IRNode)}
    (h : Saved s₁ s₂ lib₁ lib₂ t) (h' : Saved s₂ s₃ lib₂ lib₃ t) : Saved s₁ s₃ lib₁ lib₃ t := by
  refine ⟨h'.inv,⟨h'.memory.heap.trans h.memory.heap,h'.memory.emptyIr.trans h.memory.emptyIr⟩,fun T u hu => ?_⟩
  rcases h'.entries T u hu with hu | hu
  · exact h.entries T u hu
  · exact .inr hu

theorem meets_getRandInt {range : ℕ} (h : range ≠ 0) {s : Mutator} {Q : ℕ → Mutator → Prop}
    (hQ : Q (s.rand.head % range) { s with rand := s.rand.tail }) : Meets (getRandInt range) s Q :=
  ⟨_,_,if_neg h,hQ⟩

/-- One list and its set of hashes were replaced. -/
theorem LibraryInv.update {s s' : Mutator} {lib : Shelves} (h : LibraryInv s lib) {T : IRType}
    {ts : List (BinaryTree (ℕ × IRNode))} {hs : Finset UInt64}
    (hlist : s'.irLibrary = Function.update s.irLibrary T (ts.map ptr))
    (hhash : s'.irLibraryHash = Function.update s.irLibraryHash T hs) (hheap : s'.heap = s.heap)
    (hholds : ∀ t ∈ ts, Holds s.heap t) (htype : ∀ t ∈ ts, IR.type? (vals t) = some T)
    (htracked : Tracked entryHash kMaxIRNumForOneType ts hs) : LibraryInv s' (Function.update lib T ts) := by
  constructor <;> intro U <;> by_cases hU : U = T
  · subst hU
    rw [hlist, Function.update_self, Function.update_self]
  · rw [hlist, Function.update_of_ne hU, Function.update_of_ne hU, h.entries]
  · subst hU
    rw [Function.update_self, hheap]
    exact hholds
  · rw [Function.update_of_ne hU, hheap]
    exact h.holds U
  · subst hU
    rw [Function.update_self]
    exact htype
  · rw [Function.update_of_ne hU]
    exact h.type U
  · subst hU
    rw [hhash, Function.update_self, Function.update_self]
    exact htracked
  · rw [hhash, Function.update_of_ne hU, Function.update_of_ne hU]
    exact h.tracked U

/-- The list of one type is left with room for an entry. -/
theorem meets_evict {s : Mutator} {lib : Shelves} (h : LibraryInv s lib) (T : IRType)
    (t : BinaryTree (ℕ × IRNode)) : Meets (evict T) s fun _ s' => ∃ lib', Saved s s' lib lib' t ∧
      (lib' T).length < kMaxIRNumForOneType ∧ s'.irLibraryHash T ⊆ s.irLibraryHash T := by
  have hlen : (s.irLibrary T).length = (lib T).length := by rw [h.entries, List.length_map]
  refine (Meets.get (Q := fun s' t => s = s' ∧ s = t) ⟨rfl,rfl⟩).bind ?_
  rintro _ _ ⟨rfl,rfl⟩
  refine Meets.onlyIf (fun hfull => ?_) fun hroom => ⟨lib,Saved.refl h t,by omega,Finset.Subset.refl _⟩
  have hpos : (lib T).length ≠ 0 := by
    rw [hlen] at hfull
    simp only [kMaxIRNumForOneType] at hfull
    omega
  refine (meets_getRandInt (Q := fun i s' => i < (lib T).length ∧ ∃ r, s' = { s with rand := r }) (by omega)
    ⟨hlen ▸ Nat.mod_lt _ (by omega),_,rfl⟩).bind ?_
  rintro i s' ⟨hi,r,rfl⟩
  have hget : (s.irLibrary T).getD i none = ptr (lib T)[i] := by
    rw [h.entries, List.getD_eq_getElem?_getD, List.getElem?_map, List.getElem?_eq_getElem hi]
    rfl
  rw [hget]
  have hmem := List.getElem_mem hi
  refine (meets_hashOf (s := { s with rand := r })
    (Q := fun k s' => k = entryHash (lib T)[i] ∧ s' = { s with rand := r }) (h.holds T _ hmem) ⟨rfl,rfl⟩).bind ?_
  rintro k s' ⟨rfl,rfl⟩
  obtain ⟨htracked,hless⟩ := (h.tracked T).swapPop hi
  refine Meets.modify ⟨Function.update lib T (swapPop (lib T) i),⟨?_,⟨rfl,rfl⟩,?_⟩,?_,?_⟩
  · have hlist : Function.update s.irLibrary T (swapPop (s.irLibrary T) i) =
        Function.update s.irLibrary T ((swapPop (lib T) i).map ptr) := by rw [← swapPop_map, ← h.entries]
    refine h.update hlist rfl rfl (fun u hu => h.holds T u (mem_of_mem_swapPop hi hu))
      (fun u hu => h.type T u (mem_of_mem_swapPop hi hu)) htracked
  · intro U u hu
    by_cases hU : U = T
    · subst hU
      rw [Function.update_self] at hu
      exact .inl (mem_of_mem_swapPop hi hu)
    · rw [Function.update_of_ne hU] at hu
      exact .inl hu
  · rw [Function.update_self]
    exact hless.trans_le (h.tracked T).size
  · simp only [Function.update_self]
    exact Finset.erase_subset ..

/-- An entry with a new hash goes to the end of the list of its type. -/
theorem meets_insertEntry {s : Mutator} {lib : Shelves} (h : LibraryInv s lib) {T : IRType}
    {t : BinaryTree (ℕ × IRNode)} (ht : Holds s.heap t) (htype : IR.type? (vals t) = some T)
    (hroom : (lib T).length < kMaxIRNumForOneType) (hnew : entryHash t ∉ s.irLibraryHash T) :
    Meets (insertEntry T (entryHash t) (ptr t)) s fun _ s' => ∃ lib', Saved s s' lib lib' t := by
  refine Meets.modify ⟨Function.update lib T (lib T ++ [t]),?_,⟨rfl,rfl⟩,?_⟩
  · have hlist : Function.update s.irLibrary T (s.irLibrary T ++ [ptr t]) =
        Function.update s.irLibrary T ((lib T ++ [t]).map ptr) := by rw [List.map_append, ← h.entries, List.map_singleton]
    refine h.update hlist rfl rfl (fun u hu => ?_) (fun u hu => ?_) ((h.tracked T).push hroom hnew)
    · rcases List.mem_append.mp hu with hu | hu
      · exact h.holds T u hu
      · exact List.mem_singleton.mp hu ▸ ht
    · rcases List.mem_append.mp hu with hu | hu
      · exact h.type T u hu
      · exact List.mem_singleton.mp hu ▸ htype
  · intro U u hu
    by_cases hU : U = T
    · subst hU
      rw [Function.update_self, List.mem_append, List.mem_singleton] at hu
      exact hu.imp id fun hu => ⟨[],hu.symm⟩
    · rw [Function.update_of_ne hU] at hu
      exact .inl hu

theorem meets_typeOf {s : Mutator} {t : BinaryTree (ℕ × IRNode)} {v : ℕ × IRNode} {l r : BinaryTree (ℕ × IRNode)}
    (ht : Holds s.heap t) (hroot : t = .node v l r) {Q : IRType → Mutator → Prop} (hQ : Q v.2.type s) :
    Meets (typeOf (ptr t)) s Q :=
  (meets_readNode (Q := fun c s' => c = ⟨v.2,ptr l,ptr r⟩ ∧ s' = s) ht hroot ⟨rfl,rfl⟩).bind (by
    rintro c s' ⟨rfl,rfl⟩
    exact Meets.pure hQ)

theorem meets_saveIRRecursiveRec {s : Mutator} {lib : Shelves} (h : LibraryInv s lib)
    {t : BinaryTree (ℕ × IRNode)} (ht : Holds s.heap t) (hne : t ≠ .nil) {fuel : ℕ} (hfuel : t.height ≤ fuel) :
    Meets (saveIRRecursiveRec fuel (ptr t)) s fun _ s' => ∃ lib', Saved s s' lib lib' t := by
  induction t generalizing fuel s lib with
  | nil => exact absurd rfl hne
  | node v l r ihl ihr =>
    simp only [height] at hfuel
    obtain ⟨k,rfl⟩ : ∃ k, fuel = k + 1 := ⟨fuel - 1,by omega⟩
    refine (meets_typeOf (Q := fun T s' => T = v.2.type ∧ s = s') ht rfl ⟨rfl,rfl⟩).bind ?_
    rintro T s' ⟨rfl,rfl⟩
    refine (meets_hashOf (Q := fun k s' => k = entryHash (.node v l r) ∧ s = s') ht ⟨rfl,rfl⟩).bind ?_
    rintro k' s' ⟨rfl,rfl⟩
    refine (Meets.get (Q := fun s' t => s = s' ∧ s = t) ⟨rfl,rfl⟩).bind ?_
    rintro _ _ ⟨rfl,rfl⟩
    refine Meets.ite (fun _ => Meets.pure ⟨lib,Saved.refl h _⟩) fun hnew => ?_
    refine (meets_evict h v.2.type (.node v l r)).bind ?_
    rintro - s₁ ⟨lib₁,hsaved₁,hroom,hsub⟩
    have ht₁ : Holds s₁.heap (.node v l r) := hsaved₁.memory.heap ▸ ht
    refine (meets_insertEntry hsaved₁.inv ht₁ rfl hroom fun hmem => hnew (hsub hmem)).bind ?_
    rintro - s₂ ⟨lib₂,hsaved₂⟩
    have ht₂ : Holds s₂.heap (.node v l r) := hsaved₂.memory.heap ▸ ht₁
    refine (meets_readNode (Q := fun c s' => c = ⟨v.2,ptr l,ptr r⟩ ∧ s₂ = s') ht₂ rfl ⟨rfl,rfl⟩).bind ?_
    rintro c s' ⟨rfl,rfl⟩
    have hchild : ∀ {s : Mutator} {lib : Shelves} (sd : Side), LibraryInv s lib →
        (((BinaryTree.node v l r).child sd) ≠ .nil → Meets (saveIRRecursiveRec k
          (ptr ((BinaryTree.node v l r).child sd))) s fun _ s' =>
            ∃ lib', Saved s s' lib lib' ((BinaryTree.node v l r).child sd)) →
        Meets (onlyIf (ptr ((BinaryTree.node v l r).child sd)).isSome
          (saveIRRecursiveRec k (ptr ((BinaryTree.node v l r).child sd)))) s
            fun _ s' => ∃ lib', Saved s s' lib lib' (.node v l r) := by
      intro s lib sd hinv hmeets
      refine Meets.onlyIf (fun hsome => ?_) fun _ => ⟨lib,Saved.refl hinv _⟩
      refine (hmeets fun hnil => ?_).mono fun _ s' ⟨lib',h'⟩ => ⟨lib',h'.child⟩
      rw [hnil] at hsome
      cases hsome
    refine (hchild .left hsaved₂.inv fun hl => ihl hsaved₂.inv ht₂.2.1 hl (by omega)).bind ?_
    rintro - s₃ ⟨lib₃,hsaved₃⟩
    have ht₃ : Holds s₃.heap (.node v l r) := hsaved₃.memory.heap ▸ ht₂
    refine (hchild .right hsaved₃.inv fun hr => ihr hsaved₃.inv ht₃.2.2 hr (by omega)).mono ?_
    rintro - s₄ ⟨lib₄,hsaved₄⟩
    exact ⟨lib₄,((hsaved₁.trans hsaved₂).trans hsaved₃).trans hsaved₄⟩

theorem meets_saveIRRecursive {s : Mutator} {lib : Shelves} (h : LibraryInv s lib)
    {t : BinaryTree (ℕ × IRNode)} (ht : Holds s.heap t) (hne : t ≠ .nil) :
    Meets (saveIRRecursive (ptr t)) s fun _ s' => ∃ lib', Saved s s' lib lib' t :=
  meets_deeply (meets_saveIRRecursiveRec h ht hne (ht.height_le.trans (Nat.le_succ _)))

/-- The cells of the entries are kept, and the lists with them. -/
theorem LibraryInv.keep {s s' : Mutator} {lib : Shelves} (h : LibraryInv s lib)
    (hcell : ∀ T, ∀ t ∈ lib T, ∀ a ∈ addrs t, s'.heap.cell a = s.heap.cell a)
    (hlist : s'.irLibrary = s.irLibrary) (hhash : s'.irLibraryHash = s.irLibraryHash) : LibraryInv s' lib where
  entries T := by rw [hlist, h.entries]
  holds T t ht := (h.holds T t ht).congr (hcell T t ht)
  type := h.type
  tracked T := by rw [hhash]; exact h.tracked T

theorem meets_store (t : IR) (h : Heap IRNode) : Meets (store t) h fun p h' =>
    ∃ u, NewTree h h' u ∧ ptr u = p ∧ vals u = t := by
  induction t generalizing h with
  | nil => exact Meets.pure ⟨.nil,NewTree.nil (Extends.refl h),rfl,rfl⟩
  | node n l r ihl ihr =>
    refine (ihl h).bind ?_
    rintro p h₁ ⟨ul,hul,rfl,hvl⟩
    refine (ihr h₁).bind ?_
    rintro p h₂ ⟨ur,hur,rfl,hvr⟩
    refine meets_new (hul.holds.keep hur.ext) hur.holds fun h₃ hext hholds _ => ?_
    exact ⟨_,hul.node hur hext hholds rfl,rfl,by rw [vals_node, hvl, hvr]⟩

section
variable {g : Garbage}

def NewEntries (g : Garbage) (lib lib' : Shelves) (ir : IR) : Prop :=
  ∀ T, ∀ u ∈ lib' T, u ∈ lib T ∨ ∃ id p, vals u = (extractStructure g.scopeId ir id).1.subtreeAt p

theorem meets_addIRToLibrary {s : Mutator} {lib : Shelves} (h : LibraryInv s lib)
    {t : BinaryTree (ℕ × IRNode)} (ht : Holds s.heap t) (hnodup : (addrs t).Nodup) (hne : t ≠ .nil)
    (hoff : ∀ T, ∀ u ∈ lib T, ∀ a ∈ addrs u, a ∉ addrs t) :
    Meets (addIRToLibrary g (ptr t)) s fun _ s' => ∃ lib', LibraryInv s' lib' ∧ NewEntries g lib lib' (vals t) ∧
      s.heap.next ≤ s'.heap.next ∧ (∀ a < s.heap.next, a ∉ addrs t → s'.heap.cell a = s.heap.cell a) ∧
      s'.emptyIr = s.emptyIr := by
  refine (meets_extractStructureAt ht hnodup hne).bind ?_
  rintro - s₁ ⟨u,hu,hvals,hptr⟩
  have hrest := hu.rest
  simp only [Mutator.rest, Prod.mk.injEq] at hrest
  obtain ⟨hlist,hhash,hemptyIr,-⟩ := hrest
  have hinv : LibraryInv s₁ lib :=
    h.keep (fun T w hw a ha => hu.frame a ((h.holds T w hw).lt ha) (hoff T w hw a ha)) hlist hhash
  have hune : u ≠ .nil := by
    rw [Ne, ← ptr_eq_none, hptr, ptr_eq_none]
    exact hne
  rw [← hptr]
  refine (meets_saveIRRecursive hinv hu.holds hune).mono ?_
  rintro - s' ⟨lib',hsaved⟩
  refine ⟨lib',hsaved.inv,fun T w hw => ?_,?_,fun a ha hmem => ?_,hsaved.memory.emptyIr.trans hemptyIr⟩
  · refine (hsaved.entries T w hw).imp id fun ⟨p,hp⟩ => ⟨s.idCounter,p,?_⟩
    rw [← hvals, ← hp]
    exact (subtreeAt_map Prod.snd u p).symm
  · rw [hsaved.memory.heap]
    exact hu.next
  · rw [hsaved.memory.heap]
    exact hu.frame a ha hmem

structure Added (g : Garbage) (s s' : Mutator) (lib lib' : Shelves) (t : ParseTree) : Prop where
  inv : LibraryInv s' lib'
  ext : Extends s.heap s'.heap
  emptyIr : s'.emptyIr = s.emptyIr
  entries : lib' = lib ∨ ∃ id ir id', translateNode g.scopeId t id = .ok (some ir, id') ∧ NewEntries g lib lib' ir

theorem translateNode_ne_nil {uninit : StatementID → ScopeID} {t : ParseTree} {id id' : StatementID} {ir : IR}
    (h : translateNode uninit t id = .ok (some ir, id')) : ir ≠ .nil := by
  cases t with
  | terminal text => simp [translateNode] at h
  | rule ctx cs =>
    have hmodify : ∀ (f : IRNode → IRNode) {u : IR}, u ≠ .nil → u.modifyRoot f ≠ .nil := by
      intro f u hu
      cases u with
      | nil => exact absurd rfl hu
      | node n l r => simp [IR.modifyRoot]
    have hdecorate : ∀ {u : IR}, u ≠ .nil → decorate ctx u ≠ .nil := by
      intro u hu
      simp only [decorate]
      split
      · exact hmodify _ (hmodify _ hu)
      · exact hmodify _ hu
    cases translateNode_step h with
    | string hs => exact hdecorate (by simp [IR.ofData])
    | int hs hi htext => exact hdecorate (by simp [IR.ofData])
    | fold hs hi hitems hstk hfold =>
      obtain ⟨n,l,r,rfl,-⟩ := hfold.root
      exact hdecorate (by simp)

/-- A translation is stored in new cells. -/
theorem meets_translateToIR {s : Mutator} {t : ParseTree} {ir : IR} {id' : StatementID}
    (ht : translateNode g.scopeId t s.idCounter = .ok (some ir, id')) :
    Meets (translateToIR g t) s fun p s' => ∃ u, NewTree s.heap s'.heap u ∧ ptr u = p ∧ vals u = ir ∧
      s'.irLibrary = s.irLibrary ∧ s'.irLibraryHash = s.irLibraryHash ∧ s'.emptyIr = s.emptyIr ∧ s'.rand = s.rand := by
  have hrun : translateToIR g t s = onHeap (store ir) { s with idCounter := id' } := by rw [translateToIR, ht]
  rw [Meets, hrun]
  refine meets_onHeap (meets_store ir _) ?_
  rintro p h' ⟨u,hnew,hptr,hvals⟩
  exact ⟨u,hnew,hptr,hvals,rfl,rfl,rfl,rfl⟩

/-- A program that the translator accepts can be added. -/
theorem meets_addToIRLibrary {s : Mutator} {lib : Shelves} (h : LibraryInv s lib) {t : ParseTree}
    {r : Option IR} {id' : StatementID} (ht : translateNode g.scopeId t s.idCounter = .ok (r, id')) :
    Meets (addToIRLibrary g t) s fun _ s' => ∃ lib', Added g s s' lib lib' t := by
  cases r with
  | none =>
    refine Meets.bind (Q := fun p s' => p = none ∧ s' = { s with idCounter := id' })
      ⟨none,{ s with idCounter := id' },by rw [translateToIR, ht],rfl,rfl⟩ ?_
    rintro p s' ⟨rfl,rfl⟩
    refine Meets.onlyIf (fun h => absurd h Bool.false_ne_true) fun _ => ⟨lib,?_,Extends.refl _,rfl,.inl rfl⟩
    exact h.keep (fun _ _ _ _ _ => rfl) rfl rfl
  | some ir =>
    refine (meets_translateToIR ht).bind ?_
    rintro p s₁ ⟨u,hnew,rfl,hvals,hlist,hhash,hempty,-⟩
    have hnext := hnew.ext.next
    have hune : u ≠ .nil := by
      rw [Ne, ← vals_eq_nil, hvals]
      exact translateNode_ne_nil ht
    have hinv : LibraryInv s₁ lib :=
      h.keep (fun T w hw a ha => hnew.ext.cell a ((h.holds T w hw).lt ha)) hlist hhash
    have hoff : ∀ T, ∀ w ∈ lib T, ∀ a ∈ addrs w, a ∉ addrs u := by
      intro T w hw a ha hmem
      have hlt := (h.holds T w hw).lt ha
      have hge := hnew.fresh a hmem
      omega
    refine Meets.onlyIf (fun _ => ?_) fun hnone => ?_
    · refine (meets_addIRToLibrary hinv hnew.holds hnew.nodup hune hoff).mono ?_
      rintro - s' ⟨lib',hinv',hentries,hnext',hcell,hempty'⟩
      refine ⟨lib',hinv',⟨hnext.trans hnext',fun a ha => ?_⟩,hempty'.trans hempty,.inr ⟨_,ir,id',ht,hvals ▸ hentries⟩⟩
      have hmem : a ∉ addrs u := fun hmem => absurd (hnew.fresh a hmem) (by omega)
      rw [hcell a (by omega) hmem, hnew.ext.cell a ha]
    · rw [Option.isSome_iff_ne_none, Ne, ptr_eq_none, not_not] at hnone
      exact absurd hnone hune

/-- `GetRandomIR` has not made its static yet, or the static is what it made. -/
def EmptyOk (s : Mutator) : Prop :=
  s.emptyIr = none ∨ ∃ t, ptr t = s.emptyIr ∧ Holds s.heap t ∧ IR.erase (vals t) = emptyIR

variable (g)

/-- The states that calls of `AddToIRLibrary` on programs of a kind lead to. In
between the rest of the program may use memory of its own and `GetRandomIR`. -/
inductive LibraryRun (kind : ParseTree → Prop) : Mutator → Prop
  | start {s : Mutator} (hlist : s.irLibrary = fun _ => []) (hhash : s.irLibraryHash = fun _ => ∅)
      (hempty : EmptyOk s) : LibraryRun kind s
  | add {s s' : Mutator} {t : ParseTree} (h : LibraryRun kind s) (ht : kind t)
      (hrun : addToIRLibrary g t s = .ok ((), s')) : LibraryRun kind s'
  | elsewhere {s s' : Mutator} (h : LibraryRun kind s) (hext : Extends s.heap s'.heap)
      (hlist : s'.irLibrary = s.irLibrary) (hhash : s'.irLibraryHash = s.irLibraryHash)
      (hempty : EmptyOk s') : LibraryRun kind s'

def FromPrograms (kind : ParseTree → Prop) (lib : Shelves) : Prop :=
  ∀ T, ∀ u ∈ lib T, ∃ t id ir id' id'' p, kind t ∧ translateNode g.scopeId t id = .ok (some ir, id') ∧
    vals u = (extractStructure g.scopeId ir id'').1.subtreeAt p

variable {g}

theorem FromPrograms.add {kind : ParseTree → Prop} {s s' : Mutator} {lib lib' : Shelves} {t : ParseTree}
    (h : FromPrograms g kind lib) (hadd : Added g s s' lib lib' t) (ht : kind t) : FromPrograms g kind lib' := by
  rcases hadd.entries with rfl | ⟨id,ir,id',hrun,hentries⟩
  · exact h
  · intro T u hu
    rcases hentries T u hu with hu | ⟨id'',p,hp⟩
    · exact h T u hu
    · exact ⟨t,id,ir,id',id'',p,ht,hrun,hp⟩

/-- What an added program did that `addToIRLibrary` returned for. -/
theorem addToIRLibrary_added {s s' : Mutator} {lib : Shelves} (h : LibraryInv s lib) {t : ParseTree}
    (hrun : addToIRLibrary g t s = .ok ((), s')) : ∃ lib', Added g s s' lib lib' t := by
  cases ht : translateNode g.scopeId t s.idCounter with
  | error f =>
    have hfail : translateToIR g t s = .error f := by rw [translateToIR, ht]
    rw [addToIRLibrary, run_bind, hfail] at hrun
    cases hrun
  | ok p => exact (meets_addToIRLibrary h ht).of_run hrun

/-- The invariant holds after every run. -/
theorem LibraryRun.inv {kind : ParseTree → Prop} {s : Mutator} (h : LibraryRun g kind s) :
    ∃ lib, LibraryInv s lib ∧ FromPrograms g kind lib ∧ EmptyOk s := by
  induction h with
  | start hlist hhash hempty =>
    refine ⟨fun _ => [],⟨fun T => by rw [hlist]; rfl,by simp,by simp,fun T => ?_⟩,by simp [FromPrograms],hempty⟩
    rw [hhash]
    exact Tracked.empty
  | add h ht hrun ih =>
    obtain ⟨lib,hinv,hfrom,hempty⟩ := ih
    obtain ⟨lib',hadd⟩ := addToIRLibrary_added hinv hrun
    refine ⟨lib',hadd.inv,hfrom.add hadd ht,?_⟩
    rw [EmptyOk, hadd.emptyIr]
    exact hempty.imp id fun ⟨u,hptr,hu,hvals⟩ => ⟨u,hptr,hu.keep hadd.ext,hvals⟩
  | elsewhere h hext hlist hhash hempty ih =>
    obtain ⟨lib,hinv,hfrom,-⟩ := ih
    exact ⟨lib,hinv.keep (fun T t ht a ha => hext.cell a ((hinv.holds T t ht).lt ha)) hlist hhash,hfrom,hempty⟩

def Leads (s : Mutator) (p : Ptr) (t : IR) : Prop := ∃ u, ptr u = p ∧ Holds s.heap u ∧ vals u = t

/-- The representation invariant for one type. -/
def LibraryOk (s : Mutator) (T : IRType) : Prop :=
  ∃ ts : List IR, List.Forall₂ (Leads s) (s.irLibrary T) ts ∧ ts.length ≤ 0x200 ∧
    (∀ t ∈ ts, t.type? = some T) ∧ (ts.map IR.hash).Nodup ∧ s.irLibraryHash T = (ts.map IR.hash).toFinset

theorem LibraryInv.ok {s : Mutator} {lib : Shelves} (h : LibraryInv s lib) (T : IRType) : LibraryOk s T := by
  have htracked := h.tracked T
  have hkeys : ((lib T).map vals).map IR.hash = (lib T).map entryHash := by simp [entryHash, Function.comp_def]
  refine ⟨(lib T).map vals,?_,?_,?_,?_,?_⟩
  · rw [h.entries, List.forall₂_map_left_iff, List.forall₂_map_right_iff, List.forall₂_same]
    exact fun t ht => ⟨t,rfl,h.holds T t ht,rfl⟩
  · rw [List.length_map]
    exact htracked.size
  · intro t ht
    obtain ⟨u,hu,rfl⟩ := List.mem_map.mp ht
    exact h.type T u hu
  · rw [hkeys]
    exact htracked.nodup
  · rw [hkeys]
    exact htracked.keys

/-- After every sequence of additions the library is well formed, and the next
program that is translated can be added to a library that is well formed again. -/
theorem libraryRun_ok {s : Mutator} (h : LibraryRun g (fun _ => True) s) :
    (∀ T, LibraryOk s T) ∧ ∀ t r id', translateNode g.scopeId t s.idCounter = .ok (r, id') →
      ∃ s', addToIRLibrary g t s = .ok ((), s') ∧ ∀ T, LibraryOk s' T := by
  obtain ⟨lib,hinv,-,-⟩ := h.inv
  refine ⟨hinv.ok,fun t r id' ht => ?_⟩
  obtain ⟨_,s',hrun,lib',hadd⟩ := meets_addToIRLibrary hinv ht
  exact ⟨s',hrun,hadd.inv.ok⟩

end

def Mutator.start (heap : Heap IRNode) (rand : Rand) : Mutator :=
  ⟨heap,fun _ => [],fun _ => ∅,none,none,0,rand⟩

theorem Mutator.start_run {g : Garbage} {kind : ParseTree → Prop} (heap : Heap IRNode) (rand : Rand) :
    LibraryRun g kind (Mutator.start heap rand) := .start rfl rfl (.inl rfl)

def zeroed : Garbage := ⟨fun _ => 0,fun _ => (0, 0)⟩

def wordProgram (word : Str) : ParseTree :=
  .rule { ruleIndex := 0 } [.terminal ['a'], .rule { ruleIndex := 0 } [.terminal word]]

theorem wordPrograms_ok : ∃ s s' : Mutator,
    addToIRLibrary zeroed (wordProgram ['b']) (Mutator.start Heap.empty (Stream'.const 0)) = .ok ((), s) ∧
    addToIRLibrary zeroed (wordProgram ['c']) s = .ok ((), s') ∧ ∀ T, LibraryOk s' T := by
  have hstart : LibraryRun zeroed (fun _ => True) (Mutator.start Heap.empty (Stream'.const 0)) := Mutator.start_run ..
  obtain ⟨s,hs,-⟩ := (libraryRun_ok hstart).2 (wordProgram ['b']) _ _ rfl
  have hrun := LibraryRun.add hstart trivial hs
  obtain ⟨ir,id',htranslate⟩ : ∃ ir id', translateNode zeroed.scopeId (wordProgram ['c']) s.idCounter = .ok (ir, id') :=
    ⟨_,_,rfl⟩
  obtain ⟨s',hs',-⟩ := (libraryRun_ok hrun).2 _ _ _ htranslate
  exact ⟨s,s',hs,hs',(libraryRun_ok (.add hrun trivial hs')).1⟩

end PolyGlot
