import PolyGlot.Mutation.Variants

set_option autoImplicit false

/-! # A mutant is one graft

The loops of `MutateIRs` in memory. A variant is destroyed by the extraction of
the tree it was grafted into; the mutants found so far, the root, the library
and the variants still to come have other cells.
-/
namespace PolyGlot

open BinaryTree TreeHeap Prog

theorem deepCopy_replaceAt (t u : IR) (p : Path) :
    deepCopy (t.replaceAt p u) = (deepCopy t).replaceAt p (deepCopy u) := replaceAt_map ..

theorem mutantHash_congr {t t' : IR} (h : t.erase = t'.erase) : mutantHash t = mutantHash t' :=
  mutantHash_eq h _ 0

section
variable {g : Garbage} {b : ℕ} {lib : Shelves}

structure Found (g : Garbage) (s : Mutator) (acc : List Ptr × Finset UInt64) (out : List IR × Finset UInt64)
    (ms : List (BinaryTree (ℕ × IRNode))) : Prop where
  ptrs : acc.1 = ms.map ptr
  vals : ms.map (fun m => IR.erase (vals m)) = out.1
  hashes : acc.2 = out.2
  holds : ∀ m ∈ ms, Holds s.heap m
  ids : ∀ m ∈ ms, HasCopyIds g m

theorem Found.congr {s s' : Mutator} {acc : List Ptr × Finset UInt64} {out : List IR × Finset UInt64}
    {ms : List (BinaryTree (ℕ × IRNode))} (h : Found g s acc out ms)
    (hcell : ∀ m ∈ ms, ∀ a ∈ addrs m, s'.heap.cell a = s.heap.cell a) : Found g s' acc out ms :=
  ⟨h.ptrs,h.vals,h.hashes,fun m hm => (h.holds m hm).congr (hcell m hm),h.ids⟩

theorem Found.push {s : Mutator} {res : List Ptr} {resHash : Finset UInt64} {out : List IR × Finset UInt64}
    {ms : List (BinaryTree (ℕ × IRNode))} (h : Found g s (res, resHash) out ms) {m : BinaryTree (ℕ × IRNode)}
    (hm : Holds s.heap m) (hids : HasCopyIds g m) (k : UInt64) :
    Found g s (res ++ [ptr m], insert k resHash) (out.1 ++ [IR.erase (TreeHeap.vals m)], insert k out.2) (ms ++ [m]) := by
  have hptrs : res = ms.map ptr := h.ptrs
  have hhashes : resHash = out.2 := h.hashes
  refine ⟨by simp [hptrs],by simp [h.vals],by rw [hhashes],fun m' hm' => ?_,fun m' hm' => ?_⟩
  · rcases List.mem_append.mp hm' with hm' | hm'
    · exact h.holds m' hm'
    · exact List.mem_singleton.mp hm' ▸ hm
  · rcases List.mem_append.mp hm' with hm' | hm'
    · exact h.ids m' hm'
    · exact List.mem_singleton.mp hm' ▸ hids

structure Consumed (s s' : Mutator) (us : List (BinaryTree (ℕ × IRNode))) : Prop where
  next : s.heap.next ≤ s'.heap.next
  frame : ∀ a < s.heap.next, a ∉ us.flatMap addrs → s'.heap.cell a = s.heap.cell a
  rest : s'.rest = s.rest

theorem Consumed.trans {s₁ s₂ s₃ : Mutator} {u : BinaryTree (ℕ × IRNode)} {us : List (BinaryTree (ℕ × IRNode))}
    (h : Consumed s₁ s₂ [u]) (h' : Consumed s₂ s₃ us) : Consumed s₁ s₃ (u :: us) := by
  refine ⟨h.next.trans h'.next,fun a ha hmem => ?_,h'.rest.trans h.rest⟩
  rw [List.flatMap_cons, List.mem_append, not_or] at hmem
  rw [h'.frame a (ha.trans_le h.next) hmem.2, h.frame a ha (by simpa using hmem.1)]

/-- A tree with other cells is kept. -/
theorem Consumed.holds {s s' : Mutator} {us : List (BinaryTree (ℕ × IRNode))} (h : Consumed s s' us)
    {t : BinaryTree (ℕ × IRNode)} (ht : Holds s.heap t) (hoff : ∀ a ∈ addrs t, a ∉ us.flatMap addrs) :
    Holds s'.heap t :=
  ht.congr fun a ha => h.frame a (ht.lt ha) (hoff a ha)

theorem Grafted.consumed {s s' : Mutator} {root i backup : BinaryTree (ℕ × IRNode)} {p : Path}
    (h : Grafted g s s' root p i backup) : Consumed s s' [i] :=
  ⟨h.next,fun a ha hmem => h.frame a ha (by simpa using hmem),h.rest⟩

structure Pending (s : Mutator) (root : BinaryTree (ℕ × IRNode)) (us ms : List (BinaryTree (ℕ × IRNode))) : Prop where
  holds : ∀ u ∈ us, Holds s.heap u
  nodup : (us.flatMap addrs).Nodup
  root : ∀ a ∈ addrs root, a ∉ us.flatMap addrs
  found : ∀ m ∈ ms, ∀ a ∈ addrs m, a ∉ us.flatMap addrs

theorem meets_addVariantsAt {s : Mutator} {root : BinaryTree (ℕ × IRNode)} (hroot : Holds s.heap root)
    (hnodup : (addrs root).Nodup) {p : Path} (hpne : p ≠ []) {a : ℕ} (hp : ptr (root.subtreeAt p) = some a)
    {us ms : List (BinaryTree (ℕ × IRNode))} {acc : List Ptr × Finset UInt64} {out : List IR × Finset UInt64}
    (hpending : Pending s root us ms) (hfound : Found g s acc out ms) :
    Meets (addVariantsAt g (ptr root) (some a) (us.map ptr) acc) s fun acc' s' => Consumed s s' us ∧ ∃ ms',
      Found g s' acc' (addVariants (vals root) p (us.map fun u => IR.erase (vals u)) out) ms' := by
  induction us generalizing s ms acc out with
  | nil => exact Meets.pure ⟨⟨le_rfl,fun _ _ _ => rfl,rfl⟩,ms,hfound⟩
  | cons i us ih =>
    obtain ⟨res,resHash⟩ := acc
    obtain ⟨out,outHash⟩ := out
    obtain rfl : resHash = outHash := hfound.hashes
    obtain ⟨hholds,hnd,hoffroot,hoffms⟩ := hpending
    rw [List.flatMap_cons, List.nodup_append] at hnd
    simp only [List.flatMap_cons, List.mem_append, not_or] at hoffroot hoffms
    have hi := hholds i List.mem_cons_self
    refine (meets_graft (g := g) hroot hnodup hpne hp hi hnd.1).bind ?_
    rintro _ s₁ ⟨backup,hgraft,rfl⟩
    have hstep := hgraft.consumed
    have hroot₁ : Holds s₁.heap root := hstep.holds hroot fun a ha => by simpa using (hoffroot a ha).1
    have hholds₁ : ∀ u ∈ us, Holds s₁.heap u := by
      intro u hu
      refine hstep.holds (hholds u (List.mem_cons_of_mem _ hu)) fun a ha hmem => ?_
      rw [List.flatMap_singleton] at hmem
      exact hnd.2.2 a hmem a (List.mem_flatMap.mpr ⟨u,hu,ha⟩) rfl
    have hfound₁ : Found g s₁ (res, resHash) (out, resHash) ms := hfound.congr fun m hm a ha =>
      hstep.frame a ((hfound.holds m hm).lt ha) (by simpa using (hoffms m hm a ha).1)
    have hvariant : mutantHash ((vals root).replaceAt p (vals i)) =
        mutantHash ((vals root).replaceAt p (IR.erase (vals i))) :=
      mutantHash_congr (erase_replaceAt rfl (erase_erase _).symm p)
    have hbackup : IR.erase (vals backup) = deepCopy ((vals root).replaceAt p (IR.erase (vals i))) := by
      rw [hgraft.vals, deepCopy_replaceAt, deepCopy_replaceAt, deepCopy_erase]
    rw [List.map_cons, addVariants, ← hvariant, ← hbackup]
    refine Meets.ite (fun hmem => ?_) fun hmem => ?_
    · rw [if_pos hmem]
      have hpending₁ : Pending s₁ root us ms :=
        ⟨hholds₁,hnd.2.1,fun a ha => (hoffroot a ha).2,fun m hm a ha => (hoffms m hm a ha).2⟩
      exact (ih hroot₁ hpending₁ hfound₁).mono fun acc' s' ⟨hcons,hrest⟩ => ⟨hstep.trans hcons,hrest⟩
    · rw [if_neg hmem]
      have hpending₁ : Pending s₁ root us (ms ++ [backup]) := by
        refine ⟨hholds₁,hnd.2.1,fun a ha => (hoffroot a ha).2,fun m hm a ha hmem => ?_⟩
        rcases List.mem_append.mp hm with hm | hm
        · exact (hoffms m hm a ha).2 hmem
        · rw [List.mem_singleton.mp hm] at ha
          obtain ⟨u,hu,hau⟩ := List.mem_flatMap.mp hmem
          have hlt := (hholds u (List.mem_cons_of_mem _ hu)).lt hau
          have hge := hgraft.fresh a ha
          omega
      have hpush := hfound₁.push hgraft.holds hgraft.ids (mutantHash ((vals root).replaceAt p (vals i)))
      exact (ih hroot₁ hpending₁ hpush).mono fun acc' s' ⟨hcons,hrest⟩ => ⟨hstep.trans hcons,hrest⟩

theorem Stepped.consumed {s s₁ s₂ : Mutator} (h : Stepped b lib s s₁) (hs : Ready b lib s)
    {us : List (BinaryTree (ℕ × IRNode))} (hus : FreshTrees s s₁ us) (hc : Consumed s₁ s₂ us) :
    Stepped b lib s s₂ := by
  have hrest := hc.rest
  simp only [Mutator.rest, Prod.mk.injEq] at hrest
  obtain ⟨hlist,hhash,hempty,-⟩ := hrest
  have hext : Extends s.heap s₂.heap := by
    refine ⟨h.ext.next.trans hc.next,fun a ha => ?_⟩
    rw [hc.frame a (ha.trans_le h.ext.next) fun hmem => ?_, h.ext.cell a ha]
    obtain ⟨u,hu,hau⟩ := List.mem_flatMap.mp hmem
    have hge := ((hus.fresh u hu).fresh a hau).1
    omega
  refine h.rewrite hs hext (fun e he => ?_) (hlist.trans h.lists.1) (hhash.trans h.lists.2) hempty
  rcases h.ready.empty with hnone | ⟨e',n,he',hcell,-⟩
  · rw [hnone] at he
    cases he
  · rw [he'] at he
    cases he
    refine hc.frame e (lt_next hcell.1) fun hmem => ?_
    obtain ⟨u,hu,hau⟩ := List.mem_flatMap.mp hmem
    exact ((hus.fresh u hu).fresh e hau).2 he'

theorem meets_mutateEach {s : Mutator} (h : Ready b lib s) {root : BinaryTree (ℕ × IRNode)}
    (hroot : Holds s.heap root) (hnodup : (addrs root).Nodup) {ps : List Path}
    (hps : ∀ p ∈ ps, root.subtreeAt p ≠ .nil) {ms : List (BinaryTree (ℕ × IRNode))}
    {acc : List Ptr × Finset UInt64} {out : List IR × Finset UInt64} (hfound : Found g s acc out ms) :
    Meets (mutateEach g (ptr root) (ps.map fun p => ptr (root.subtreeAt p)) acc) s fun acc' s' =>
      Stepped b lib s s' ∧ s'.rand = (mutatePositions lib.values (vals root) ps out s.rand).2 ∧
        ∃ ms', Found g s' acc' (mutatePositions lib.values (vals root) ps out s.rand).1 ms' := by
  induction ps generalizing s ms acc out with
  | nil => exact Meets.pure ⟨h.refl,rfl,ms,hfound⟩
  | cons p ps ih =>
    have hne := hps p List.mem_cons_self
    have hps' : ∀ q ∈ ps, root.subtreeAt q ≠ .nil := fun q hq => hps q (List.mem_cons_of_mem _ hq)
    obtain ⟨a,ha⟩ : ∃ a, ptr (root.subtreeAt p) = some a := by
      rw [← Option.ne_none_iff_exists', Ne, ptr_eq_none]
      exact hne
    have hcur := hroot.subtreeAt p
    have hvals : vals (root.subtreeAt p) = (vals root).subtreeAt p := (subtreeAt_map ..).symm
    have htop : ptr (root.subtreeAt p) = ptr root ↔ p = [] := by
      constructor
      · intro heq
        exact path_unique hnodup ha (q := []) (heq ▸ ha)
      · rintro rfl
        rfl
    refine (meets_treeOf (Q := fun t s' => t = (vals root).subtreeAt p ∧ s = s') hcur ⟨hvals,rfl⟩).bind ?_
    rintro t s' ⟨rfl,rfl⟩
    rw [mutatePositions]
    refine Meets.ite (fun hskip => ?_) fun hmutate => ?_
    · rw [htop, Bool.not_eq_true'] at hskip
      rw [if_pos hskip]
      exact ih h hroot hps' hfound
    · rw [htop, Bool.not_eq_true'] at hmutate
      rw [if_neg hmutate]
      obtain ⟨hpne,-⟩ := not_or.mp hmutate
      refine (meets_mutateIRAt (g := g) h hcur hne).bind ?_
      rintro vs s₁ ⟨us,hall⟩
      simp only [hall.ptrs, ha]
      have hold : ∀ t, Holds s.heap t → ∀ c ∈ addrs t, c ∉ us.flatMap addrs := by
        intro t ht c hc hmem
        obtain ⟨u,hu,hcu⟩ := List.mem_flatMap.mp hmem
        have hlt := ht.lt hc
        have hge := ((hall.fresh.fresh u hu).fresh c hcu).1
        omega
      have hfound₁ : Found g s₁ acc out ms := hfound.congr fun m hm c hc => hall.step.ext.cell c ((hfound.holds m hm).lt hc)
      have hpending : Pending s₁ root us ms :=
        ⟨fun u hu => (hall.fresh.fresh u hu).holds,hall.fresh.nodup,hold root hroot,fun m hm => hold m (hfound.holds m hm)⟩
      refine (meets_addVariantsAt (hroot.keep hall.step.ext) hnodup hpne ha hpending hfound₁).bind ?_
      rintro acc₂ s₂ ⟨hcons,ms₂,hfound₂⟩
      have hstep := hall.step.consumed h hall.fresh hcons
      have hrest := hcons.rest
      simp only [Mutator.rest, Prod.mk.injEq] at hrest
      refine (ih hstep.ready (hroot.keep hstep.ext) hps' hfound₂).mono ?_
      rintro acc₃ s₃ ⟨hstep₃,hrand,hfound₃⟩
      rw [hrest.2.2.2, hall.rand, hall.vals, hvals] at hrand hfound₃
      exact ⟨hstep.trans hstep₃,hrand,hfound₃⟩

theorem meets_getAllChildrenRec {h : Heap IRNode} {t : BinaryTree (ℕ × IRNode)} (ht : Holds h t) (hne : t ≠ .nil)
    {fuel : ℕ} (hfuel : t.height ≤ fuel) : Meets (getAllChildrenRec fuel (ptr t)) h fun ps h' =>
      h = h' ∧ ps ++ [ptr t] = t.postorder.map fun p => ptr (t.subtreeAt p) := by
  induction t generalizing fuel with
  | nil => exact absurd rfl hne
  | node v l r ihl ihr =>
    simp only [height] at hfuel
    obtain ⟨k,rfl⟩ : ∃ k, fuel = k + 1 := ⟨fuel - 1,by omega⟩
    have hchild : ∀ {t : BinaryTree (ℕ × IRNode)}, (t ≠ .nil → Meets (getAllChildrenRec k (ptr t)) h
        fun ps h' => h = h' ∧ ps ++ [ptr t] = t.postorder.map fun p => ptr (t.subtreeAt p)) →
        Meets (withChild (getAllChildrenRec k) (ptr t)) h
          fun ps h' => h = h' ∧ ps = t.postorder.map fun p => ptr (t.subtreeAt p) := by
      intro t hmeets
      cases t with
      | nil => exact Meets.pure ⟨rfl,rfl⟩
      | node w wl wr =>
        refine (hmeets (by simp)).bind ?_
        rintro ps h' ⟨rfl,hps⟩
        exact Meets.pure ⟨rfl,hps⟩
    refine (meets_deref (Q := fun c h' => c = ⟨v.2,ptr l,ptr r⟩ ∧ h = h') ht rfl ⟨rfl,rfl⟩).bind ?_
    rintro c h' ⟨rfl,rfl⟩
    refine (hchild fun hl => ihl ht.2.1 hl (by omega)).bind ?_
    rintro ps h' ⟨rfl,rfl⟩
    refine (hchild fun hr => ihr ht.2.2 hr (by omega)).bind ?_
    rintro ps h' ⟨rfl,rfl⟩
    refine Meets.pure ⟨rfl,?_⟩
    simp [postorder, Function.comp_def]

theorem meets_collectAllIRs {h : Heap IRNode} {t : BinaryTree (ℕ × IRNode)} (ht : Holds h t) (hne : t ≠ .nil) :
    Meets (collectAllIRs (ptr t)) h fun ps h' => h = h' ∧ ps = t.postorder.map fun p => ptr (t.subtreeAt p) := by
  refine Meets.bind (Q := fun ps h' => h = h' ∧ ps ++ [ptr t] = t.postorder.map fun p => ptr (t.subtreeAt p))
    (meets_withFuel (meets_getAllChildrenRec ht hne (ht.height_le.trans (Nat.le_succ _)))) ?_
  rintro ps h' ⟨rfl,hps⟩
  exact Meets.pure ⟨rfl,hps⟩

structure Mutated (g : Garbage) (b : ℕ) (lib : Shelves) (s s' : Mutator) (root : IR) (ps : List Ptr)
    (ms : List (BinaryTree (ℕ × IRNode))) : Prop where
  step : Stepped b lib s s'
  rand : s'.rand = (mutateIRs lib.values root s.rand).2
  ptrs : ps = ms.map ptr
  vals : ms.map (fun m => IR.erase (vals m)) = (mutateIRs lib.values root s.rand).1
  holds : ∀ m ∈ ms, Holds s'.heap m
  ids : ∀ m ∈ ms, HasCopyIds g m

theorem meets_mutateRoot {s : Mutator} (h : Ready b lib s) {root : BinaryTree (ℕ × IRNode)}
    (hroot : Holds s.heap root) (hnodup : (addrs root).Nodup) (hne : root ≠ .nil) :
    Meets (mutateRoot g (ptr root)) s fun ps s' => ∃ ms, Mutated g b lib s s' (vals root) ps ms := by
  refine (meets_onHeap (R := fun ps s' => ps = root.postorder.map (fun p => ptr (root.subtreeAt p)) ∧ s = s')
    (meets_collectAllIRs hroot hne) ?_).bind ?_
  · rintro ps h' ⟨rfl,rfl⟩
    exact ⟨rfl,rfl⟩
  rintro ps s' ⟨rfl,rfl⟩
  have hlast : (root.postorder.map fun p => ptr (root.subtreeAt p)).getLastD none = ptr root := by
    cases root with
    | nil => exact absurd rfl hne
    | node v l r => simp [postorder]
  rw [mutateIRsAt, hlast]
  refine (meets_hashOf (Q := fun k s' => k = IR.hash (vals root) ∧ s = s') hroot ⟨rfl,rfl⟩).bind ?_
  rintro k s' ⟨rfl,rfl⟩
  have hfound : Found g s ([],{IR.hash (vals root)}) ([],{IR.hash (vals root)}) [] :=
    ⟨rfl,rfl,rfl,by simp,by simp⟩
  refine (meets_mutateEach (g := g) h hroot hnodup (fun p hp => mem_postorder.mp hp) hfound).bind ?_
  rintro acc s' ⟨hstep,hrand,ms,hms⟩
  have hpost : (vals root).postorder = root.postorder := postorder_map ..
  rw [← hpost] at hrand hms
  exact Meets.pure ⟨ms,hstep,hrand,hms.ptrs,hms.vals,hms.holds,hms.ids⟩

theorem mem_addVariants {root : IR} {p : Path} {vs : List IR} {acc : List IR × Finset UInt64} {t : IR}
    (h : t ∈ (addVariants root p vs acc).1) : t ∈ acc.1 ∨ ∃ v ∈ vs, t = deepCopy (root.replaceAt p v) := by
  induction vs generalizing acc with
  | nil => exact .inl h
  | cons v vs ih =>
    obtain ⟨res,resHash⟩ := acc
    simp only [addVariants] at h
    split at h
    · exact (ih h).imp id fun ⟨v',hv',ht⟩ => ⟨v',List.mem_cons_of_mem _ hv',ht⟩
    · rcases ih h with h | ⟨v',hv',ht⟩
      · rcases List.mem_append.mp h with h | h
        · exact .inl h
        · exact .inr ⟨v,List.mem_cons_self,List.mem_singleton.mp h⟩
      · exact .inr ⟨v',List.mem_cons_of_mem _ hv',ht⟩

theorem mem_mutatePositions {lib : Entries} {root : IR} {ps : List Path} {acc : List IR × Finset UInt64} {r : Rand}
    {t : IR} (h : t ∈ (mutatePositions lib root ps acc r).1.1) : t ∈ acc.1 ∨ ∃ p ∈ ps, p ≠ [] ∧
      shouldMutate (root.subtreeAt p) ∧ ∃ r, ∃ v ∈ (mutateIR lib (root.subtreeAt p) r).1,
        t = deepCopy (root.replaceAt p v) := by
  induction ps generalizing acc r with
  | nil => exact .inl h
  | cons p ps ih =>
    have hlater : ∀ {acc r}, t ∈ (mutatePositions lib root ps acc r).1.1 → t ∈ acc.1 ∨ ∃ q ∈ p :: ps, q ≠ [] ∧
        shouldMutate (root.subtreeAt q) ∧ ∃ r, ∃ v ∈ (mutateIR lib (root.subtreeAt q) r).1,
          t = deepCopy (root.replaceAt q v) :=
      fun h => (ih h).imp id fun ⟨q,hq,hrest⟩ => ⟨q,List.mem_cons_of_mem _ hq,hrest⟩
    rw [mutatePositions] at h
    split at h
    · exact hlater h
    · obtain ⟨hpne,hshould⟩ := not_or.mp ‹_›
      rw [Bool.not_eq_false] at hshould
      rcases hlater h with h | h
      · refine (mem_addVariants h).imp id fun ⟨v,hv,ht⟩ => ?_
        exact ⟨p,List.mem_cons_self,hpne,hshould,r,v,hv,ht⟩
      · exact .inr h

/-- Every returned tree is the copy of one graft. -/
theorem mem_mutateIRs {lib : Entries} {root : IR} {r : Rand} {t : IR} (h : t ∈ (mutateIRs lib root r).1) :
    ∃ p, p ≠ [] ∧ root.subtreeAt p ≠ .nil ∧ shouldMutate (root.subtreeAt p) ∧
      ∃ r, ∃ v ∈ (mutateIR lib (root.subtreeAt p) r).1, t = deepCopy (root.replaceAt p v) := by
  rcases mem_mutatePositions h with h | ⟨p,hp,hpne,hrest⟩
  · cases h
  · exact ⟨p,hpne,mem_postorder.mp hp,hrest⟩

def IRNode.isDefinition (n : IRNode) : Prop :=
  n.dataType = .kVariableDefinition ∨ n.dataType = .kVariableType ∨ n.dataType = .kClassDefinition

theorem canBeMutated_of_definition {t : IR} {q : Path} {n : IRNode} (hq : (t.subtreeAt q).root? = some n)
    (hn : n.isDefinition) : canBeMutated t = false := by
  induction q generalizing t with
  | nil =>
    cases t with
    | nil => cases hq
    | node m l r =>
      cases hq
      exact if_pos hn
  | cons sd q ih =>
    cases t with
    | nil => simp [root?] at hq
    | node m l r =>
      rw [canBeMutated]
      split
      · rfl
      · cases sd
        · rw [ih (t := l) hq, Bool.false_and]
        · rw [ih (t := r) hq, Bool.and_false]

/-- Every definition of `root` is in `m`, at the same place. -/
def KeepsDefinitions (root m : IR) : Prop :=
  ∀ q n, (root.subtreeAt q).root? = some n → n.isDefinition →
    ∃ n', (m.subtreeAt q).root? = some n' ∧ n'.copied = n.copied

/-- The trees agree but for their ids, an absent operator being an empty one. -/
def SameUpToIds (t u : IR) : Prop := deepCopy t = deepCopy u

theorem root?_map (f : IRNode → IRNode) (t : IR) : (t.map f).root? = t.root?.map f := by cases t <;> rfl

theorem keepsDefinitions_of_graft {root m v : IR} {p : Path} (hp : shouldMutate (root.subtreeAt p))
    (hm : SameUpToIds m (root.replaceAt p v)) : KeepsDefinitions root m := by
  intro q n hq hn
  have hoff : ¬ p <+: q := by
    rintro ⟨q',rfl⟩
    rw [subtreeAt_append] at hq
    have hfrozen := canBeMutated_of_definition hq hn
    rw [shouldMutate, hfrozen, Bool.and_false] at hp
    cases hp
  have hroot := root?_subtreeAt_replaceAt (u := v) (t := root) hoff
  have hcopy : ((m.subtreeAt q).root?).map IRNode.copied = (((root.replaceAt p v).subtreeAt q).root?).map IRNode.copied := by
    rw [← root?_map, ← root?_map, ← subtreeAt_map, ← subtreeAt_map]
    exact congrArg (fun t : IR => (t.subtreeAt q).root?) hm
  rw [hroot, hq, Option.map_some, Option.map_eq_some_iff] at hcopy
  exact hcopy

/-- `m` is the tree at `root` with one subtree below the root, that passes
`should_mutate`, replaced by a tree that `MutateIR` can return for it. -/
def IsGraft (g : Garbage) (s : Mutator) (root : BinaryTree (ℕ × IRNode)) (m : IR) : Prop :=
  ∃ p, p ≠ [] ∧ root.subtreeAt p ≠ .nil ∧ shouldMutate (vals (root.subtreeAt p)) ∧
    ∃ r vs s', mutateIRAt g (ptr (root.subtreeAt p)) { s with rand := r } = .ok (vs, s') ∧
      ∃ q ∈ vs, ∃ v, Leads s' q v ∧ SameUpToIds m ((vals root).replaceAt p v)

theorem deepCopy_deepCopy (t : IR) : deepCopy (deepCopy t) = deepCopy t := by
  rw [deepCopy, deepCopy, ← comp_map]
  rfl

/-- The library of a run is ready to be used. -/
theorem LibraryInv.ready {s : Mutator} {lib : Shelves} (h : LibraryInv s lib) (hempty : EmptyOk s) :
    Ready s.heap.next lib s := by
  refine ⟨h,fun T u hu a ha => (h.holds T u hu).lt ha,le_rfl,hempty.imp id fun ⟨t,hptr,ht,hvals⟩ => ?_⟩
  cases t with
  | nil => cases hvals
  | node v l r =>
    rw [vals_node, emptyIR_eq, erase_node, BinaryTree.node.injEq] at hvals
    obtain ⟨hn,hl,hr⟩ := hvals
    rw [vals_eq_nil.mp (erase_eq_nil.mp hl), vals_eq_nil.mp (erase_eq_nil.mp hr)] at ht
    exact ⟨v.1,v.2,hptr.symm,ht,hn⟩

/-- From every library that additions lead to, `MutateIRs` returns, leaves all
trees and the library as they are, and returns grafts. -/
theorem mutateRoot_grafts {s : Mutator} (h : LibraryRun g (fun _ => True) s) {root : BinaryTree (ℕ × IRNode)}
    (hroot : Holds s.heap root) (hnodup : (addrs root).Nodup) (hne : root ≠ .nil) :
    ∃ ps s', mutateRoot g (ptr root) s = .ok (ps, s') ∧ (∀ t, Holds s.heap t → Holds s'.heap t) ∧
      s'.irLibrary = s.irLibrary ∧ s'.irLibraryHash = s.irLibraryHash ∧
      ∀ q ∈ ps, ∃ m, Leads s' q m ∧ IsGraft g s root m ∧ KeepsDefinitions (vals root) m := by
  obtain ⟨lib,hinv,-,hempty⟩ := h.inv
  have hready := hinv.ready hempty
  obtain ⟨ps,s',hrun,ms,hms⟩ := meets_mutateRoot (g := g) hready hroot hnodup hne
  refine ⟨ps,s',hrun,fun t ht => ht.keep hms.step.ext,hms.step.lists.1,hms.step.lists.2,fun q hq => ?_⟩
  rw [hms.ptrs] at hq
  obtain ⟨m,hm,rfl⟩ := List.mem_map.mp hq
  have hmem : IR.erase (vals m) ∈ (mutateIRs lib.values (vals root) s.rand).1 := by
    rw [← hms.vals]
    exact List.mem_map_of_mem hm
  obtain ⟨p,hpne,hpos,hshould,r,v,hv,heq⟩ := mem_mutateIRs hmem
  have hsub : vals (root.subtreeAt p) = (vals root).subtreeAt p := (subtreeAt_map ..).symm
  rw [← hsub] at hpos hshould hv
  have hcurne : root.subtreeAt p ≠ .nil := fun hnil => hpos (vals_eq_nil.mpr hnil)
  have hready' := hready.withRand r
  obtain ⟨vs,s'',hrun',us,hall⟩ := meets_mutateIRAt (g := g) hready' (hroot.subtreeAt p) hcurne
  rw [← hall.vals] at hv
  obtain ⟨u,hu,rfl⟩ := List.mem_map.mp hv
  have hsame : SameUpToIds (vals m) ((vals root).replaceAt p (vals u)) := by
    rw [SameUpToIds, ← deepCopy_erase, heq, deepCopy_deepCopy, deepCopy_replaceAt, deepCopy_replaceAt, deepCopy_erase]
  rw [hsub] at hshould
  refine ⟨vals m,⟨m,rfl,hms.holds m hm,rfl⟩,?_,keepsDefinitions_of_graft hshould hsame⟩
  refine ⟨p,hpne,hcurne,by rw [hsub]; exact hshould,r,vs,s'',hrun',ptr u,?_,vals u,?_,hsame⟩
  · rw [hall.ptrs]
    exact List.mem_map_of_mem hu
  · exact ⟨u,rfl,(hall.fresh.fresh u hu).holds,rfl⟩

end

def parenTree : BinaryTree (ℕ × IRNode) :=
  .node (2, ⟨0,none,.monostate,.kDataDefault,.kScopeDefault,0,0⟩)
    (.node (1, ⟨1,some ⟨['('],[],[')']⟩,.monostate,.kDataDefault,.kScopeDefault,0,1⟩)
      (.node (0, ⟨2,none,.string ['x'],.kDataDefault,.kScopeDefault,0,2⟩) .nil .nil) .nil) .nil

def parenHeap : Heap IRNode :=
  ((Heap.empty.push ⟨⟨2,none,.string ['x'],.kDataDefault,.kScopeDefault,0,2⟩,none,none⟩).push
    ⟨⟨1,some ⟨['('],[],[')']⟩,.monostate,.kDataDefault,.kScopeDefault,0,1⟩,some 0,none⟩).push
      ⟨⟨0,none,.monostate,.kDataDefault,.kScopeDefault,0,0⟩,some 1,none⟩

theorem parenHeap_holds : Holds parenHeap parenTree :=
  ⟨rfl,⟨rfl,⟨rfl,trivial,trivial⟩,trivial⟩,trivial⟩

def parenState : Mutator :=
  match addToIRLibrary zeroed (wordProgram ['b']) (Mutator.start parenHeap (Stream'.const 0)) with
  | .error _ => Mutator.start parenHeap (Stream'.const 0)
  | .ok (_, s) => s

theorem parenState_run : LibraryRun zeroed (fun _ => True) parenState ∧ Holds parenState.heap parenTree := by
  have hstart : LibraryRun zeroed (fun _ => True) (Mutator.start parenHeap (Stream'.const 0)) :=
    Mutator.start_run _ _
  obtain ⟨lib,hinv,-,-⟩ := hstart.inv
  obtain ⟨_,s,hrun,_,hadd⟩ := meets_addToIRLibrary (g := zeroed) hinv (t := wordProgram ['b']) rfl
  have hstate : parenState = s := by rw [parenState, hrun]
  rw [hstate]
  exact ⟨.add hstart trivial hrun,Holds.keep parenHeap_holds hadd.ext⟩

theorem parenTree_grafts : ∃ ps s', mutateRoot zeroed (some 2) parenState = .ok (ps, s') ∧
    ∀ q ∈ ps, ∃ m, Leads s' q m ∧ IsGraft zeroed parenState parenTree m ∧ KeepsDefinitions (vals parenTree) m := by
  obtain ⟨ps,s',hrun,-,-,-,hgrafts⟩ := mutateRoot_grafts parenState_run.1 parenState_run.2 (by decide) (by simp [parenTree])
  exact ⟨ps,s',hrun,hgrafts⟩

/-- The word is replaced. -/
example : (mutateIRs (fun _ => []) (vals parenTree) (Stream'.const 0)).1.map IR.tokens =
    [[['('], [')']]] := by decide +kernel

end PolyGlot
