import PolyGlot.Mutation.StatementIds
import PolyGlot.Antlr.Erasure

set_option autoImplicit false

/-! # The mutator without memory

`SaveIRRecursive` as a function on the lists of the library, whose entries are
trees without ids. The sets of hashes, the cells and the id counter are not
needed to say what an addition does, nor what `MutateIRs` returns.
-/
namespace PolyGlot

open BinaryTree TreeHeap Prog KeyedList

def makeRoom (es : List IR) (r : Rand) : List IR × Rand :=
  if kMaxIRNumForOneType ≤ es.length then (swapPop es (r.head % es.length),r.tail) else (es,r)

def saveIR : IR → Entries × Rand → Entries × Rand
  | .nil, s => s
  | .node n l r, (lib,rand) =>
    if IR.hash (.node n l r) ∈ (lib n.type).map IR.hash then (lib,rand)
    else
      let room := makeRoom (lib n.type) rand
      saveIR r (saveIR l (Function.update lib n.type (room.1 ++ [.node n l r]),room.2))

def extracted (t : IR) : IR := IR.erase (extractStructure (fun _ => 0) t 0).1

def Shelves.erased (lib : Shelves) : Entries := fun T => (lib T).map fun t => IR.erase (vals t)

section
variable {s s' : Mutator} {lib lib' : Shelves} {T : IRType} {t : BinaryTree (ℕ × IRNode)}

/-- The pointers in the lists determine the trees. -/
theorem LibraryInv.eq_of_ptrs (h : LibraryInv s lib) (hptrs : ∀ T, s.irLibrary T = (lib' T).map ptr)
    (hholds : ∀ T, ∀ t ∈ lib' T, Holds s.heap t) : lib = lib' := by
  funext T
  have heq := h.entries T
  rw [hptrs] at heq
  have hall : ∀ us vs : List (BinaryTree (ℕ × IRNode)), (∀ u ∈ us, Holds s.heap u) → (∀ v ∈ vs, Holds s.heap v) →
      us.map ptr = vs.map ptr → us = vs := by
    intro us
    induction us with
    | nil =>
      intro vs _ _ hmap
      exact (List.map_eq_nil_iff.mp hmap.symm).symm
    | cons u us ih =>
      intro vs hus hvs hmap
      cases vs with
      | nil => cases hmap
      | cons v vs =>
        obtain ⟨hu,hus⟩ := List.forall_mem_cons.mp hus
        obtain ⟨hv,hvs⟩ := List.forall_mem_cons.mp hvs
        rw [List.map_cons, List.map_cons, List.cons.injEq] at hmap
        rw [hu.unique hv hmap.1, ih vs hus hvs hmap.2]
  exact (hall _ _ (hholds T) (h.holds T) heq).symm

/-- The trees after one list was replaced. -/
theorem LibraryInv.eq_update (h : LibraryInv s' lib') (hinv : LibraryInv s lib) (hheap : s'.heap = s.heap)
    {ts : List (BinaryTree (ℕ × IRNode))} (hts : ∀ t ∈ ts, Holds s.heap t)
    (hlist : s'.irLibrary = Function.update s.irLibrary T (ts.map ptr)) : lib' = Function.update lib T ts := by
  apply h.eq_of_ptrs
  · intro U
    by_cases hU : U = T
    · subst hU
      rw [hlist, Function.update_self, Function.update_self]
    · rw [hlist, Function.update_of_ne hU, Function.update_of_ne hU, hinv.entries]
  · intro U u hu
    rw [hheap]
    by_cases hU : U = T
    · subst hU
      rw [Function.update_self] at hu
      exact hts u hu
    · rw [Function.update_of_ne hU] at hu
      exact hinv.holds U u hu

theorem erased_update (lib : Shelves) (T : IRType) (ts : List (BinaryTree (ℕ × IRNode))) :
    Shelves.erased (Function.update lib T ts) = Function.update lib.erased T (ts.map fun t => IR.erase (vals t)) := by
  funext U
  by_cases hU : U = T
  · subst hU
    rw [Shelves.erased, Function.update_self, Function.update_self]
  · rw [Shelves.erased, Function.update_of_ne hU, Function.update_of_ne hU]
    rfl

structure Shelving (s s' : Mutator) (out : Entries × Rand) (lib' : Shelves) : Prop where
  inv : LibraryInv s' lib'
  memory : SameMemory s s'
  erased : (lib'.erased,s'.rand) = out

theorem meets_evict_erased (h : LibraryInv s lib) (T : IRType) : Meets (evict T) s fun _ s' => ∃ lib',
    Shelving s s' (Function.update lib.erased T (makeRoom (lib.erased T) s.rand).1,(makeRoom (lib.erased T) s.rand).2) lib' ∧
      (lib' T).length < kMaxIRNumForOneType ∧ s'.irLibraryHash T ⊆ s.irLibraryHash T := by
  obtain ⟨⟨⟩,s',hrun,lib',hsaved,hroom,hsub⟩ := meets_evict h T .nil
  have hlength : (lib.erased T).length = (s.irLibrary T).length := by
    rw [h.entries, Shelves.erased, List.length_map, List.length_map]
  refine ⟨_,s',hrun,lib',⟨hsaved.inv,hsaved.memory,?_⟩,hroom,hsub⟩
  rw [makeRoom, hlength]
  rw [evict, run_get_bind] at hrun
  by_cases hfull : kMaxIRNumForOneType ≤ (s.irLibrary T).length
  · rw [onlyIf, if_pos hfull] at hrun
    have hlen : (lib T).length = (s.irLibrary T).length := by rw [h.entries, List.length_map]
    have hpos : (s.irLibrary T).length ≠ 0 := by
      simp only [kMaxIRNumForOneType] at hfull
      omega
    obtain ⟨i,s₁,hrand,hrun⟩ := of_bind hrun
    rw [getRandInt, if_neg hpos] at hrand
    cases hrand
    have hi : s.rand.head % (s.irLibrary T).length < (lib T).length := hlen ▸ Nat.mod_lt _ (by omega)
    rw [if_pos hfull]
    generalize s.rand.head % (s.irLibrary T).length = i at hi hrun ⊢
    obtain ⟨k,s₂,hhash,hrun⟩ := of_bind hrun
    have hget : (s.irLibrary T).getD i none = ptr (lib T)[i] := by
      rw [h.entries, List.getD_eq_getElem?_getD, List.getElem?_map, List.getElem?_eq_getElem hi]
      rfl
    rw [hget] at hhash
    have hsame : s₂ = { s with rand := s.rand.tail } := (meets_hashOf (s := { s with rand := s.rand.tail })
      (Q := fun _ s' => s' = { s with rand := s.rand.tail }) (h.holds T _ (List.getElem_mem hi)) rfl).of_run hhash
    subst hsame
    cases hrun
    have hlib : lib' = Function.update lib T (swapPop (lib T) i) := by
      apply hsaved.inv.eq_update h hsaved.memory.heap fun u hu => h.holds T u (mem_of_mem_swapPop hi hu)
      rw [← swapPop_map, ← h.entries]
    rw [hlib, erased_update, ← swapPop_map]
    rfl
  · rw [onlyIf, if_neg hfull] at hrun
    cases hrun
    rw [if_neg hfull, hsaved.inv.eq_of_ptrs h.entries h.holds, Function.update_eq_self]

theorem meets_insertEntry_erased (h : LibraryInv s lib) (ht : Holds s.heap t) (htype : IR.type? (vals t) = some T)
    (hroom : (lib T).length < kMaxIRNumForOneType) (hnew : entryHash t ∉ s.irLibraryHash T) :
    Meets (insertEntry T (entryHash t) (ptr t)) s fun _ s' => ∃ lib',
      Shelving s s' (Function.update lib.erased T (lib.erased T ++ [IR.erase (vals t)]),s.rand) lib' := by
  obtain ⟨⟨⟩,s',hrun,lib',hsaved⟩ := meets_insertEntry h ht htype hroom hnew
  refine ⟨_,s',hrun,lib',hsaved.inv,hsaved.memory,?_⟩
  cases hrun
  have hlib : lib' = Function.update lib T (lib T ++ [t]) := by
    apply hsaved.inv.eq_update h hsaved.memory.heap
    · intro u hu
      rcases List.mem_append.mp hu with hu | hu
      · exact h.holds T u hu
      · exact List.mem_singleton.mp hu ▸ ht
    · rw [List.map_append, ← h.entries]
      rfl
  rw [hlib, erased_update, List.map_append]
  rfl

/-- The hashes in the set are those of the entries. -/
theorem LibraryInv.mem_hash_iff (h : LibraryInv s lib) (t : BinaryTree (ℕ × IRNode)) (T : IRType) :
    entryHash t ∈ s.irLibraryHash T ↔ IR.hash (IR.erase (vals t)) ∈ (lib.erased T).map IR.hash := by
  have hhash : ∀ u : BinaryTree (ℕ × IRNode), IR.hash (IR.erase (vals u)) = entryHash u := fun u => hash_erase _
  rw [(h.tracked T).keys, List.mem_toFinset, Shelves.erased, List.map_map, hhash]
  simp only [List.mem_map, Function.comp_apply, hhash]

theorem meets_saveIRRecursiveRec_erased (h : LibraryInv s lib) (ht : Holds s.heap t) (hne : t ≠ .nil) {fuel : ℕ}
    (hfuel : t.height ≤ fuel) : Meets (saveIRRecursiveRec fuel (ptr t)) s fun _ s' => ∃ lib',
      Shelving s s' (saveIR (IR.erase (vals t)) (lib.erased,s.rand)) lib' := by
  induction t generalizing fuel s lib with
  | nil => exact absurd rfl hne
  | node v l r ihl ihr =>
    simp only [height] at hfuel
    obtain ⟨k,rfl⟩ : ∃ k, fuel = k + 1 := ⟨fuel - 1,by omega⟩
    refine (meets_typeOf (Q := fun T s' => T = v.2.type ∧ s = s') ht rfl ⟨rfl,rfl⟩).bind ?_
    rintro T s' ⟨rfl,rfl⟩
    refine (meets_hashOf (Q := fun k s' => k = entryHash (.node v l r) ∧ s = s') ht ⟨rfl,rfl⟩).bind ?_
    rintro k' s' ⟨rfl,rfl⟩
    refine (Meets.get (Q := fun s' t => s = s' ∧ s = t) ⟨rfl,rfl⟩).bind ?_
    rintro _ _ ⟨rfl,rfl⟩
    have hmem := h.mem_hash_iff (.node v l r) v.2.type
    have htype : v.2.erase.type = v.2.type := rfl
    rw [vals_node, erase_node] at hmem ⊢
    rw [saveIR, htype]
    refine Meets.ite (fun hold => ?_) fun hnew => ?_
    · exact Meets.pure ⟨lib,h,⟨rfl,rfl⟩,(if_pos (hmem.mp hold)).symm⟩
    rw [if_neg (mt hmem.mpr hnew)]
    refine (meets_evict_erased h v.2.type).bind ?_
    rintro - s₁ ⟨lib₁,hshelved₁,hroom,hsub⟩
    have ht₁ : Holds s₁.heap (.node v l r) := hshelved₁.memory.heap ▸ ht
    refine (meets_insertEntry_erased hshelved₁.inv ht₁ rfl hroom fun hmem => hnew (hsub hmem)).bind ?_
    rintro - s₂ ⟨lib₂,hshelved₂⟩
    have ht₂ : Holds s₂.heap (.node v l r) := hshelved₂.memory.heap ▸ ht₁
    refine (meets_readNode (Q := fun c s' => c = ⟨v.2,ptr l,ptr r⟩ ∧ s₂ = s') ht₂ rfl ⟨rfl,rfl⟩).bind ?_
    rintro c s' ⟨rfl,rfl⟩
    have hchild : ∀ {s : Mutator} {lib : Shelves} (u : BinaryTree (ℕ × IRNode)), LibraryInv s lib →
        (u ≠ .nil → Meets (saveIRRecursiveRec k (ptr u)) s fun _ s' =>
          ∃ lib', Shelving s s' (saveIR (IR.erase (vals u)) (lib.erased,s.rand)) lib') →
        Meets (onlyIf (ptr u).isSome (saveIRRecursiveRec k (ptr u))) s
          fun _ s' => ∃ lib', Shelving s s' (saveIR (IR.erase (vals u)) (lib.erased,s.rand)) lib' := by
      intro s lib u hinv hmeets
      refine Meets.onlyIf (fun hsome => hmeets fun hnil => ?_) fun hnone => ?_
      · rw [hnil] at hsome
        cases hsome
      · rw [Option.isSome_iff_ne_none, Ne, ptr_eq_none, not_not] at hnone
        rw [hnone]
        exact ⟨lib,hinv,⟨rfl,rfl⟩,rfl⟩
    refine (hchild l hshelved₂.inv fun hl => ihl hshelved₂.inv ht₂.2.1 hl (by omega)).bind ?_
    rintro - s₃ ⟨lib₃,hshelved₃⟩
    have ht₃ : Holds s₃.heap (.node v l r) := hshelved₃.memory.heap ▸ ht₂
    refine (hchild r hshelved₃.inv fun hr => ihr hshelved₃.inv ht₃.2.2 hr (by omega)).mono ?_
    rintro - s₄ ⟨lib₄,hshelved₄⟩
    have hheap := ((hshelved₄.memory.heap.trans hshelved₃.memory.heap).trans hshelved₂.memory.heap).trans hshelved₁.memory.heap
    have hempty := ((hshelved₄.memory.emptyIr.trans hshelved₃.memory.emptyIr).trans hshelved₂.memory.emptyIr).trans
      hshelved₁.memory.emptyIr
    refine ⟨lib₄,hshelved₄.inv,⟨hheap,hempty⟩,?_⟩
    have h₁ := hshelved₁.erased
    have h₂ := hshelved₂.erased
    rw [Prod.mk.injEq] at h₁ h₂
    rw [hshelved₄.erased, hshelved₃.erased, h₂.1, h₂.2, h₁.1, h₁.2, Function.update_self, Function.update_idem]
    rfl

variable {g : Garbage}

theorem extracted_eq {t t' : IR} (h : t.erase = t'.erase) (uninit : StatementID → ScopeID) (id : StatementID) :
    IR.erase (extractStructure uninit t id).1 = extracted t' := erase_extractStructure h id 0

theorem meets_addIRToLibrary_erased (h : LibraryInv s lib) (ht : Holds s.heap t) (hnodup : (addrs t).Nodup)
    (hne : t ≠ .nil) (hoff : ∀ T, ∀ u ∈ lib T, ∀ a ∈ addrs u, a ∉ addrs t) :
    Meets (addIRToLibrary g (ptr t)) s fun _ s' => ∃ lib', LibraryInv s' lib' ∧
      (lib'.erased,s'.rand) = saveIR (extracted (vals t)) (lib.erased,s.rand) := by
  refine (meets_extractStructureAt ht hnodup hne).bind ?_
  rintro - s₁ ⟨u,hu,hvals,hptr⟩
  have hrest := hu.rest
  simp only [Mutator.rest, Prod.mk.injEq] at hrest
  obtain ⟨hlist,hhash,-,hrand⟩ := hrest
  have hinv : LibraryInv s₁ lib :=
    h.keep (fun T w hw a ha => hu.frame a ((h.holds T w hw).lt ha) (hoff T w hw a ha)) hlist hhash
  have hune : u ≠ .nil := by
    rw [Ne, ← ptr_eq_none, hptr, ptr_eq_none]
    exact hne
  have hextracted : IR.erase (vals u) = extracted (vals t) := by
    rw [← extracted_eq rfl g.scopeId s.idCounter, ← hvals]
  rw [← hptr, ← hextracted, ← hrand]
  refine (meets_deeply (meets_saveIRRecursiveRec_erased hinv hu.holds hune (hu.holds.height_le.trans (Nat.le_succ _)))).mono ?_
  rintro - s' ⟨lib',hshelved⟩
  exact ⟨lib',hshelved.inv,hshelved.erased⟩

/-- A translated program that is added. -/
theorem meets_addToIRLibrary_erased (h : LibraryInv s lib) {t : ParseTree} {ir : IR} {id' : StatementID}
    (ht : translateNode g.scopeId t s.idCounter = .ok (some ir,id')) :
    Meets (addToIRLibrary g t) s fun _ s' => ∃ lib', LibraryInv s' lib' ∧
      (lib'.erased,s'.rand) = saveIR (extracted ir) (lib.erased,s.rand) := by
  refine (meets_translateToIR ht).bind ?_
  rintro p s₁ ⟨u,hnew,rfl,rfl,hlist,hhash,-,hrand⟩
  have hune : u ≠ .nil := by
    rw [Ne, ← vals_eq_nil]
    exact translateNode_ne_nil ht
  have hinv : LibraryInv s₁ lib :=
    h.keep (fun T w hw a ha => hnew.ext.cell a ((h.holds T w hw).lt ha)) hlist hhash
  have hoff : ∀ T, ∀ w ∈ lib T, ∀ a ∈ addrs w, a ∉ addrs u := by
    intro T w hw a ha hmem
    have hlt := (h.holds T w hw).lt ha
    have hge := hnew.fresh a hmem
    omega
  rw [← hrand]
  refine Meets.onlyIf (fun _ => meets_addIRToLibrary_erased hinv hnew.holds hnew.nodup hune hoff) fun hnone => ?_
  rw [Option.isSome_iff_ne_none, Ne, ptr_eq_none, not_not] at hnone
  exact absurd hnone hune

end

theorem type_eq_of_erase {n n' : IRNode} (h : n.erase = n'.erase) : n.type = n'.type := by
  have htype : n.erase.type = n'.erase.type := by rw [h]
  exact htype

theorem op_eq_of_erase {n n' : IRNode} (h : n.erase = n'.erase) : n.op = n'.op := by
  have hop : n.erase.op = n'.erase.op := by rw [h]
  exact hop

theorem copied_eq_of_erase {n n' : IRNode} (h : n.erase = n'.erase) : n.copied = n'.copied := by
  rw [← copied_erase, h, copied_erase]

theorem type?_eq_of_erase {t t' : IR} (h : t.erase = t'.erase) : t.type? = t'.type? := by
  rw [← type?_erase, h, type?_erase]

theorem deepCopy_eq_of_erase {t t' : IR} (h : t.erase = t'.erase) : deepCopy t = deepCopy t' := by
  rw [← deepCopy_erase, h, deepCopy_erase]

theorem erase_child (t : IR) (sd : Side) : IR.erase (t.child sd) = (IR.erase t).child sd := (child_map ..).symm

theorem canBeMutated_erase (t : IR) : canBeMutated t.erase = canBeMutated t := by
  induction t with
  | nil => rfl
  | node n l r ihl ihr =>
    rw [erase_node, canBeMutated, canBeMutated, ihl, ihr]
    rfl

theorem shouldMutate_erase (t : IR) : shouldMutate t.erase = shouldMutate t := by
  have hleaf : t.erase.isLeaf = t.isLeaf := by
    cases t with
    | nil => rfl
    | node n l r => cases l <;> cases r <;> rfl
  rw [shouldMutate, shouldMutate, type?_erase, hleaf, canBeMutated_erase]

section
variable {lib lib' : Entries}

def SameEntries (lib lib' : Entries) : Prop := ∀ T, (lib T).map IR.erase = (lib' T).map IR.erase

theorem getRandomIR_erase (h : SameEntries lib lib') (T : IRType) (r : Rand) :
    IR.erase (getRandomIR lib T r).1 = IR.erase (getRandomIR lib' T r).1 ∧
      (getRandomIR lib T r).2 = (getRandomIR lib' T r).2 := by
  have hT := h T
  unfold getRandomIR
  cases hlib : lib T with
  | nil =>
    rw [hlib, List.map_nil] at hT
    rw [List.map_eq_nil_iff.mp hT.symm]
    exact ⟨rfl,rfl⟩
  | cons e es =>
    cases hlib' : lib' T with
    | nil => simp [hlib, hlib'] at hT
    | cons e' es' =>
      rw [hlib, hlib'] at hT
      have hlength : (e :: es).length = (e' :: es').length := by simpa using congrArg List.length hT
      refine ⟨?_,rfl⟩
      have hget : ∀ (l : List IR) (i : ℕ), IR.erase (l.getD i emptyIR) = (l.map IR.erase).getD i emptyIR.erase := by
        intro l i
        rw [List.getD_eq_getElem?_getD, List.getD_eq_getElem?_getD, List.getElem?_map, Option.getD_map]
      dsimp only
      rw [hget, hget, hT, hlength]

theorem sameInterface_erase {t t' u u' : IR} (ht : t.erase = t'.erase) (hu : u.erase = u'.erase) :
    sameInterface t u = sameInterface t' u' := by
  rw [sameInterface, sameInterface, type?_eq_of_erase ht, type?_eq_of_erase hu]

theorem strategyReplaceWithConstraint_erase (h : SameEntries lib lib') {cur cur' : IR} (hcur : cur.erase = cur'.erase)
    (r : Rand) : strategyReplaceWithConstraint lib cur r = strategyReplaceWithConstraint lib' cur' r := by
  cases cur with
  | nil => rw [erase_eq_nil.mp hcur.symm]; rfl
  | node n cl cr =>
    cases cur' with
    | nil => cases hcur
    | node n' cl' cr' =>
      rw [erase_node, erase_node, BinaryTree.node.injEq] at hcur
      obtain ⟨hn,hl,hr⟩ := hcur
      obtain ⟨hentry,hrand⟩ := getRandomIR_erase h n'.type r
      rw [strategyReplaceWithConstraint, strategyReplaceWithConstraint, op_eq_of_erase hn, type_eq_of_erase hn]
      cases hgot : getRandomIR lib n'.type r with
      | mk e r₁ =>
        cases hgot' : getRandomIR lib' n'.type r with
        | mk e' r₁' =>
          rw [hgot, hgot'] at hentry hrand
          obtain rfl : r₁ = r₁' := hrand
          cases e with
          | nil =>
            rw [show e' = .nil from erase_eq_nil.mp hentry.symm]
          | node m rl rr =>
            cases e' with
            | nil => cases hentry
            | node m' rl' rr' =>
              simp only [erase_node, BinaryTree.node.injEq] at hentry
              obtain ⟨hm,hrl,hrr⟩ := hentry
              simp only [sameInterface_erase hrl hl, sameInterface_erase hrr hr, copied_eq_of_erase hm,
                deepCopy_eq_of_erase hl, deepCopy_eq_of_erase hr]

theorem notUnknown_erase {t t' : IR} (h : t.erase = t'.erase) : notUnknown t = notUnknown t' := by
  rw [notUnknown, notUnknown, type?_eq_of_erase h]

theorem erase_child_eq {t t' : IR} (h : t.erase = t'.erase) (sd : Side) : IR.erase (t.child sd) = IR.erase (t'.child sd) := by
  rw [erase_child, erase_child, h]

theorem replacedChild_erase (h : SameEntries lib lib') {cur cur' : IR} (hcur : cur.erase = cur'.erase) (sd : Side)
    (r : Rand) : replacedChild lib cur sd r = replacedChild lib' cur' sd r := by
  have hchild := erase_child_eq hcur sd
  obtain ⟨hentry,hrand⟩ := getRandomIR_erase h ((IR.type? (cur'.child sd)).getD 0) r
  simp only [replacedChild, notUnknown_erase hchild, type?_eq_of_erase hchild, deepCopy_eq_of_erase hcur,
    deepCopy_eq_of_erase hentry, hrand]

theorem replacedChildren_erase (h : SameEntries lib lib') {cur cur' : IR} (hcur : cur.erase = cur'.erase) (r : Rand) :
    replacedChildren lib cur r = replacedChildren lib' cur' r := by
  have hl := erase_child_eq hcur .left
  have hr := erase_child_eq hcur .right
  obtain ⟨hentry,hrand⟩ := getRandomIR_erase h ((IR.type? (cur'.child .left)).getD 0) r
  obtain ⟨hentry',hrand'⟩ := getRandomIR_erase h ((IR.type? (cur'.child .right)).getD 0)
    (getRandomIR lib' ((IR.type? (cur'.child .left)).getD 0) r).2
  simp only [replacedChildren, notUnknown_erase hl, notUnknown_erase hr, type?_eq_of_erase hl, type?_eq_of_erase hr,
    deepCopy_eq_of_erase hcur, deepCopy_eq_of_erase hentry, hrand, deepCopy_eq_of_erase hentry', hrand']

theorem constrainedVariants_erase (h : SameEntries lib lib') {cur cur' : IR} (hcur : cur.erase = cur'.erase) (k : ℕ)
    (r : Rand) : constrainedVariants lib cur k r = constrainedVariants lib' cur' k r := by
  induction k generalizing r with
  | zero => rfl
  | succ k ih => simp only [constrainedVariants, strategyReplaceWithConstraint_erase h hcur, ih]

theorem mutateIR_erase (h : SameEntries lib lib') {cur cur' : IR} (hcur : cur.erase = cur'.erase) (r : Rand) :
    mutateIR lib cur r = mutateIR lib' cur' r := by
  simp only [mutateIR, strategyReplace, constrainedVariants_erase h hcur, replacedChild_erase h hcur,
    replacedChildren_erase h hcur]

theorem addVariants_erase {root root' : IR} (hroot : root.erase = root'.erase) (p : Path) (vs : List IR)
    (acc : List IR × Finset UInt64) : addVariants root p vs acc = addVariants root' p vs acc := by
  induction vs generalizing acc with
  | nil => rfl
  | cons v vs ih =>
    obtain ⟨res,resHash⟩ := acc
    have hgraft : IR.erase (root.replaceAt p v) = IR.erase (root'.replaceAt p v) := erase_replaceAt hroot rfl p
    simp only [addVariants, mutantHash_congr hgraft, deepCopy_eq_of_erase hgraft, ih]

theorem mutatePositions_erase (h : SameEntries lib lib') {root root' : IR} (hroot : root.erase = root'.erase)
    (ps : List Path) (acc : List IR × Finset UInt64) (r : Rand) :
    mutatePositions lib root ps acc r = mutatePositions lib' root' ps acc r := by
  induction ps generalizing acc r with
  | nil => rfl
  | cons p ps ih =>
    have hcur : IR.erase (root.subtreeAt p) = IR.erase (root'.subtreeAt p) := by
      have hmap : ∀ t : IR, IR.erase (t.subtreeAt p) = (IR.erase t).subtreeAt p := fun t => (subtreeAt_map ..).symm
      rw [hmap, hmap, hroot]
    have hshould : shouldMutate (root.subtreeAt p) = shouldMutate (root'.subtreeAt p) := by
      rw [← shouldMutate_erase, hcur, shouldMutate_erase]
    simp only [mutatePositions, hshould, mutateIR_erase h hcur, addVariants_erase hroot, ih]

/-- The mutants of a root without ids, from a library without ids. -/
theorem mutateIRs_erase (h : SameEntries lib lib') {root root' : IR} (hroot : root.erase = root'.erase) (r : Rand) :
    mutateIRs lib root r = mutateIRs lib' root' r := by
  have hpost : root.postorder = root'.postorder := by
    rw [← postorder_map IRNode.erase root, ← postorder_map IRNode.erase root']
    exact congrArg postorder hroot
  simp only [mutateIRs, hpost, hash_congr hroot, mutatePositions_erase h hroot]

theorem Shelves.sameEntries (lib : Shelves) : SameEntries lib.values lib.erased := by
  intro T
  simp only [Shelves.values, Shelves.erased, List.map_map]
  exact List.map_congr_left fun t _ => (erase_erase _).symm

end

end PolyGlot
