import PolyGlot.Mutation.Memory

set_option autoImplicit false

/-! # What the copies, the extraction and the graft do to memory

One lemma for each recursion over pointers: it returns, the tree it leaves is
the one that the function on values gives, and every other cell is as before.
-/
namespace PolyGlot

open BinaryTree TreeHeap Prog

theorem meets_onHeap {α : Type} {m : Mem α} {s : Mutator} {Q : α → Heap IRNode → Prop}
    {R : α → Mutator → Prop} (h : Meets m s.heap Q) (hR : ∀ a h', Q a h' → R a { s with heap := h' }) :
    Meets (onHeap m) s R := Meets.onPart h hR

theorem meets_deeply {α : Type} {m : ℕ → Run α} {s : Mutator} {Q : α → Mutator → Prop}
    (h : Meets (m (s.heap.next + 1)) s Q) : Meets (deeply m) s Q := h

theorem meets_treeOf {s : Mutator} {t : BinaryTree (ℕ × IRNode)} (ht : Holds s.heap t)
    {Q : IR → Mutator → Prop} (hQ : Q (vals t) s) : Meets (treeOf (ptr t)) s Q := by
  have hload : Meets (withFuel (load · (ptr t))) s.heap fun u h => u = vals t ∧ h = s.heap :=
    meets_withFuel (meets_load ht (Nat.lt_succ_of_le ht.height_le) ⟨rfl,rfl⟩)
  refine meets_onHeap hload ?_
  rintro u h ⟨rfl,rfl⟩
  exact hQ

theorem treeOf_reads {p : Ptr} {s s' : Mutator} {t : IR} (hrun : treeOf p s = .ok (t,s')) : s' = s := by
  unfold treeOf onHeap at hrun
  obtain ⟨h,hload,rfl⟩ := of_onPart hrun
  rw [load_reads hload]

theorem meets_hashOf {s : Mutator} {t : BinaryTree (ℕ × IRNode)} (ht : Holds s.heap t)
    {Q : UInt64 → Mutator → Prop} (hQ : Q (IR.hash (vals t)) s) : Meets (hashOf (ptr t)) s Q :=
  (meets_treeOf (Q := fun u s' => u = vals t ∧ s' = s) ht ⟨rfl,rfl⟩).bind (by
    rintro u s' ⟨rfl,rfl⟩
    exact Meets.pure hQ)

/-- Read the cell of a node. -/
theorem meets_readNode {s : Mutator} {t : BinaryTree (ℕ × IRNode)} {v : ℕ × IRNode}
    {l r : BinaryTree (ℕ × IRNode)} (ht : Holds s.heap t) (hroot : t = .node v l r)
    {Q : Cell IRNode → Mutator → Prop} (hQ : Q ⟨v.2,ptr l,ptr r⟩ s) :
    Meets (onHeap (deref (ptr t))) s Q := by
  refine meets_onHeap (meets_deref (Q := fun c h => c = ⟨v.2,ptr l,ptr r⟩ ∧ h = s.heap) ht hroot ⟨rfl,rfl⟩) ?_
  rintro c h ⟨rfl,rfl⟩
  exact hQ

def Mutator.rest (s : Mutator) : (IRType → List Ptr) × (IRType → Finset UInt64) × Ptr × Rand :=
  (s.irLibrary, s.irLibraryHash, s.emptyIr, s.rand)

section
variable {g : Garbage}

def HasCopyIds (g : Garbage) (t : BinaryTree (ℕ × IRNode)) : Prop :=
  ∀ x ∈ t.values, (x.2.scopeId, x.2.statementId) = g.copyIds x.1

theorem meets_copyChild {ε σ : Type} {copy : Ptr → Prog ε σ Ptr} {t : BinaryTree (ℕ × IRNode)} {s : σ}
    {Q : Ptr → σ → Prop} (hnil : t = .nil → Q none s) (hnode : t ≠ .nil → Meets (copy (ptr t)) s Q) :
    Meets (copyChild copy (ptr t)) s Q := by
  cases t with
  | nil => exact Meets.pure (hnil rfl)
  | node v l r => exact hnode (by simp)

structure IsCopy (g : Garbage) (h h' : Heap IRNode) (t u : BinaryTree (ℕ × IRNode)) : Prop where
  new : NewTree h h' u
  vals : IR.erase (vals u) = deepCopy (vals t)
  ids : HasCopyIds g u

theorem meets_deepCopyRec {h : Heap IRNode} {t : BinaryTree (ℕ × IRNode)} (ht : Holds h t) (hne : t ≠ .nil)
    {fuel : ℕ} (hfuel : t.height ≤ fuel) : Meets (deepCopyRec g fuel (ptr t)) h
      fun p h' => ∃ u, IsCopy g h h' t u ∧ ptr u = p := by
  induction t generalizing fuel h with
  | nil => exact absurd rfl hne
  | node v l r ihl ihr =>
    simp only [height] at hfuel
    obtain ⟨k,rfl⟩ : ∃ k, fuel = k + 1 := ⟨fuel - 1,by omega⟩
    have hchild : ∀ {h : Heap IRNode} {t : BinaryTree (ℕ × IRNode)}, (t ≠ .nil →
        Meets (deepCopyRec g k (ptr t)) h fun p h' => ∃ u, IsCopy g h h' t u ∧ ptr u = p) →
        Meets (copyChild (deepCopyRec g k) (ptr t)) h fun p h' => ∃ u, IsCopy g h h' t u ∧ ptr u = p := by
      intro h t hmeets
      refine meets_copyChild (fun hnil => ?_) hmeets
      subst hnil
      exact ⟨.nil,⟨NewTree.nil (Extends.refl h),rfl,by simp [HasCopyIds, values]⟩,rfl⟩
    refine (meets_deref (Q := fun c h' => c = ⟨v.2,ptr l,ptr r⟩ ∧ h = h') ht rfl ⟨rfl,rfl⟩).bind ?_
    rintro c h' ⟨rfl,rfl⟩
    refine (hchild fun hl => ihl ht.2.1 hl (by omega)).bind ?_
    rintro p h₁ ⟨ul,hul,rfl⟩
    refine (hchild fun hr => ihr (ht.2.2.keep hul.new.ext) hr (by omega)).bind ?_
    rintro p h₂ ⟨ur,hur,rfl⟩
    refine meets_new (hul.new.holds.keep hur.new.ext) hur.new.holds fun h₃ hext hholds _ => ?_
    refine ⟨_,⟨hul.new.node hur.new hext hholds rfl,?_,?_⟩,rfl⟩
    · have hvl := hul.vals
      have hvr := hur.vals
      simp only [IR.erase, deepCopy] at hvl hvr
      simp only [vals_node, IR.erase, deepCopy, map, hvl, hvr]
      rfl
    · intro x hx
      simp only [values, List.mem_cons, List.mem_append] at hx
      rcases hx with rfl | hx | hx
      · rfl
      · exact hul.ids x hx
      · exact hur.ids x hx

theorem meets_deepCopyAt {h : Heap IRNode} {t : BinaryTree (ℕ × IRNode)} (ht : Holds h t) (hne : t ≠ .nil) :
    Meets (deepCopyAt g (ptr t)) h fun p h' => ∃ u, IsCopy g h h' t u ∧ ptr u = p :=
  meets_withFuel (meets_deepCopyRec ht hne (ht.height_le.trans (Nat.le_succ _)))

structure Recorded (s s' : Mutator) (t u : BinaryTree (ℕ × IRNode)) (record : Ptr) : Prop where
  new : NewTree s.heap s'.heap u
  vals : vals u = vals t
  found : ∀ p, ptr (t.subtreeAt p) = record → s'.record = ptr (u.subtreeAt p)
  missed : (∀ p, ptr (t.subtreeAt p) ≠ record) → s'.record = s.record
  rest : s'.rest = s.rest

theorem meets_deepCopyWithRecordRec {s : Mutator} {t : BinaryTree (ℕ × IRNode)} (ht : Holds s.heap t)
    (hnodup : (addrs t).Nodup) (hne : t ≠ .nil) {a fuel : ℕ} (hfuel : t.height ≤ fuel) :
    Meets (deepCopyWithRecordRec (some a) fuel (ptr t)) s
      fun p s' => ∃ u, Recorded s s' t u (some a) ∧ ptr u = p := by
  induction t generalizing fuel s with
  | nil => exact absurd rfl hne
  | node v l r ihl ihr =>
    simp only [height] at hfuel
    obtain ⟨k,rfl⟩ : ∃ k, fuel = k + 1 := ⟨fuel - 1,by omega⟩
    rw [addrs_node, List.nodup_cons, List.mem_append, List.nodup_append] at hnodup
    obtain ⟨hv,hndl,hndr,hlr⟩ := hnodup
    have hchild : ∀ {s : Mutator} {t : BinaryTree (ℕ × IRNode)}, (t ≠ .nil →
        Meets (deepCopyWithRecordRec (some a) k (ptr t)) s
          fun p s' => ∃ u, Recorded s s' t u (some a) ∧ ptr u = p) →
        Meets (copyChild (deepCopyWithRecordRec (some a) k) (ptr t)) s
          fun p s' => ∃ u, Recorded s s' t u (some a) ∧ ptr u = p := by
      intro s t hmeets
      refine meets_copyChild (fun hnil => ?_) hmeets
      subst hnil
      exact ⟨.nil,⟨NewTree.nil (Extends.refl _),rfl,by simp,fun _ => rfl,rfl⟩,rfl⟩
    rw [deepCopyWithRecordRec]
    refine (Meets.assertThat (Q := fun _ s' => s = s') rfl rfl).bind ?_
    rintro - s' rfl
    refine (meets_readNode (Q := fun c s' => c = ⟨v.2,ptr l,ptr r⟩ ∧ s = s') ht rfl ⟨rfl,rfl⟩).bind ?_
    rintro c s' ⟨rfl,rfl⟩
    refine (hchild fun hl => ihl ht.2.1 hndl hl (by omega)).bind ?_
    rintro p s₁ ⟨ul,hul,rfl⟩
    refine (hchild fun hr => ihr (ht.2.2.keep hul.new.ext) hndr hr (by omega)).bind ?_
    rintro p s₂ ⟨ur,hur,rfl⟩
    have hnewCell : Meets (onHeap (new (fun _ => v.2) (ptr ul) (ptr ur))) s₂ fun p s₃ =>
        p = some s₂.heap.next ∧ Extends s₂.heap s₃.heap ∧ Holds s₃.heap (.node (s₂.heap.next, v.2) ul ur) ∧
          s₃.record = s₂.record ∧ s₃.rest = s₂.rest :=
      meets_onHeap (Q := fun p h₃ => p = some s₂.heap.next ∧ Extends s₂.heap h₃ ∧
        Holds h₃ (.node (s₂.heap.next, v.2) ul ur)) (meets_new (hul.new.holds.keep hur.new.ext) hur.new.holds
        fun h₃ hext hholds _ => ⟨rfl,hext,hholds⟩) fun p h₃ h => ⟨h.1,h.2.1,h.2.2,rfl,rfl⟩
    refine hnewCell.bind ?_
    rintro p s₃ ⟨rfl,hext,hholds,hrecord,hrest⟩
    have hnew := hul.new.node hur.new hext hholds rfl
    have hvals : vals (.node (s₂.heap.next, v.2) ul ur) = vals (.node v l r) := by
      rw [vals_node, vals_node, hul.vals, hur.vals]
    have hrest' : s₃.rest = s.rest := hrest.trans (hur.rest.trans hul.rest)
    by_cases hroot : ptr (.node v l r) = some a
    · refine (Meets.onlyIf (Q := fun _ s₄ => s₄ = { s₃ with record := some s₂.heap.next })
        (fun _ => Meets.modify rfl) fun hne => absurd hroot hne).bind ?_
      rintro - s₄ rfl
      refine Meets.pure ⟨_,⟨hnew,hvals,fun p hp => ?_,fun hmissed => absurd hroot (hmissed []),hrest'⟩,rfl⟩
      have hnodup' : (addrs (.node v l r)).Nodup := by
        rw [addrs_node, List.nodup_cons, List.mem_append, List.nodup_append]
        exact ⟨hv,hndl,hndr,hlr⟩
      rw [path_unique hnodup' hp (q := []) hroot]
      rfl
    · refine (Meets.onlyIf (Q := fun _ s₄ => s₄ = s₃) (fun h => absurd h hroot) fun _ => rfl).bind ?_
      rintro - s₄ rfl
      refine Meets.pure ⟨_,⟨hnew,hvals,fun p hp => ?_,fun hmissed => ?_,hrest'⟩,rfl⟩
      · rcases p with _ | ⟨_ | _,p⟩
        · exact absurd hp hroot
        · have hl : ∀ q, ptr (r.subtreeAt q) ≠ some a := fun q hq =>
            hlr a (mem_addrs_subtreeAt hp) a (mem_addrs_subtreeAt hq) rfl
          rw [hrecord, hur.missed hl, hul.found p hp]
          rfl
        · rw [hrecord, hur.found p hp]
          rfl
      · rw [hrecord, hur.missed fun q => hmissed (.right :: q), hul.missed fun q => hmissed (.left :: q)]

theorem meets_deepCopyWithRecord {s : Mutator} {t : BinaryTree (ℕ × IRNode)} (ht : Holds s.heap t)
    (hnodup : (addrs t).Nodup) (hne : t ≠ .nil) {a : ℕ} :
    Meets (deepCopyWithRecord (ptr t) (some a)) s fun p s' => ∃ u, Recorded s s' t u (some a) ∧ ptr u = p :=
  meets_deeply (meets_deepCopyWithRecordRec ht hnodup hne (ht.height_le.trans (Nat.le_succ _)))

theorem meets_newLeaf (type : IRType) (str : Str) (s : Mutator) : Meets (newLeaf g type str) s fun p s' =>
    ∃ u, NewTree s.heap s'.heap u ∧ ptr u = p ∧ vals u = IR.ofData g.scopeId type (.string str) s.idCounter ∧
      s'.idCounter = s.idCounter + 1 ∧ s'.rest = s.rest := by
  refine Meets.bind (Q := fun id s' => id = s.idCounter ∧ s' = { s with idCounter := s.idCounter + 1 })
    ⟨_,_,rfl,rfl,rfl⟩ ?_
  rintro id s' ⟨rfl,rfl⟩
  refine meets_onHeap (meets_new (Q := fun p h' => ∃ u, NewTree s.heap h' u ∧ ptr u = p ∧
    vals u = IR.ofData g.scopeId type (.string str) s.idCounter) (l := .nil) (r := .nil) trivial trivial ?_) ?_
  · intro h' hext hholds _
    exact ⟨_,(NewTree.nil (Extends.refl _)).node (NewTree.nil (Extends.refl _)) hext hholds rfl,rfl,rfl⟩
  · rintro p h' ⟨u,hnew,hptr,hvals⟩
    exact ⟨u,hnew,hptr,hvals,rfl,rfl⟩

structure Extracted (s s' : Mutator) (t u : BinaryTree (ℕ × IRNode)) : Prop where
  holds : Holds s'.heap u
  nodup : (addrs u).Nodup
  addrs : ∀ a ∈ addrs u, a ∈ addrs t ∨ s.heap.next ≤ a
  next : s.heap.next ≤ s'.heap.next
  frame : ∀ a < s.heap.next, a ∉ TreeHeap.addrs t → s'.heap.cell a = s.heap.cell a
  rest : s'.rest = s.rest

theorem dataType?_vals {v : ℕ × IRNode} {l r : BinaryTree (ℕ × IRNode)} :
    IR.dataType? (vals (.node v l r)) = some v.2.dataType := rfl

structure ChildExtracted (g : Garbage) (s s' : Mutator) (t : BinaryTree (ℕ × IRNode)) (sd : Side)
    (u : BinaryTree (ℕ × IRNode)) : Prop where
  tree : Extracted s s' t (setChild sd u t)
  vals : (vals u, s'.idCounter) = extractedChild g.scopeId (vals (t.child sd)) s.idCounter
  isNil : u = .nil ↔ t.child sd = .nil

/-- Only the root's pointer to one child and what hangs there changed. -/
theorem Extracted.ofChild {s s' : Mutator} {v : ℕ × IRNode} {l r u : BinaryTree (ℕ × IRNode)} (sd : Side)
    (ht : Holds s.heap (.node v l r)) (hnodup : (TreeHeap.addrs (.node v l r)).Nodup)
    (hcell : s'.heap.cell v.1 = some (Cell.setSide sd (ptr u) ⟨v.2,ptr l,ptr r⟩)) (hu : Holds s'.heap u)
    (hunodup : (TreeHeap.addrs u).Nodup)
    (haddrs : ∀ a ∈ TreeHeap.addrs u, a ∈ TreeHeap.addrs ((BinaryTree.node v l r).child sd) ∨ s.heap.next ≤ a)
    (hnext : s.heap.next ≤ s'.heap.next)
    (hframe : ∀ a < s.heap.next, a ≠ v.1 → a ∉ TreeHeap.addrs ((BinaryTree.node v l r).child sd) →
      s'.heap.cell a = s.heap.cell a) (hrest : s'.rest = s.rest) :
    Extracted s s' (.node v l r) (setChild sd u (.node v l r)) := by
  have hset : setChild sd u (.node v l r) = (BinaryTree.node v l r).replaceAt [sd] u := rfl
  have hchild : ∀ a ∈ TreeHeap.addrs ((BinaryTree.node v l r).child sd), a ∈ TreeHeap.addrs (.node v l r) :=
    fun a ha => (addrs_subtreeAt_sublist (.node v l r) [sd]).subset ha
  have hframe' : ∀ a < s.heap.next, a ∉ TreeHeap.addrs (.node v l r) → s'.heap.cell a = s.heap.cell a := by
    intro a ha hmem
    refine hframe a ha (fun heq => hmem ?_) fun hc => hmem (hchild a hc)
    rw [addrs_node, heq]
    exact List.mem_cons_self ..
  refine ⟨?_,?_,?_,hnext,hframe',hrest⟩
  · rw [addrs_node, List.nodup_cons, List.mem_append, List.nodup_append] at hnodup
    obtain ⟨hv,_,_,hlr⟩ := hnodup
    cases sd with
    | left =>
      have hr : Holds s'.heap r := ht.2.2.congr fun a ha => hframe a (ht.2.2.lt ha)
        (fun heq => hv (.inr (heq ▸ ha))) fun hc => hlr a hc a ha rfl
      exact ⟨hcell,hu,hr⟩
    | right =>
      have hl : Holds s'.heap l := ht.2.1.congr fun a ha => hframe a (ht.2.1.lt ha)
        (fun heq => hv (.inl (heq ▸ ha))) fun hc => hlr a ha a hc rfl
      exact ⟨hcell,hl,hu⟩
  · rw [hset]
    apply nodup_replaceAt hnodup hunodup
    intro a ha hat
    rcases haddrs a ha with h | h
    · exact h
    · exact absurd (ht.lt hat) (not_lt.mpr h)
  · intro a ha
    rw [hset] at ha
    rcases mem_addrs_replaceAt ha with h | h
    · exact .inl h
    · exact (haddrs a h).imp_left (hchild a)

theorem Extracted.refl {s : Mutator} {t : BinaryTree (ℕ × IRNode)} (ht : Holds s.heap t)
    (hnodup : (TreeHeap.addrs t).Nodup) : Extracted s s t t :=
  ⟨ht,hnodup,fun _ ha => .inl ha,le_rfl,fun _ _ _ => rfl,rfl⟩

theorem side_eq (sd : Side) (v : ℕ × IRNode) (l r : BinaryTree (ℕ × IRNode)) :
    Cell.side sd ⟨v.2,ptr l,ptr r⟩ = ptr ((BinaryTree.node v l r).child sd) := by cases sd <;> rfl

theorem setSide_same (sd : Side) (v : ℕ × IRNode) (l r : BinaryTree (ℕ × IRNode)) :
    Cell.setSide sd (ptr ((BinaryTree.node v l r).child sd)) ⟨v.2,ptr l,ptr r⟩ = ⟨v.2,ptr l,ptr r⟩ := by
  cases sd <;> rfl

theorem setChild_same (sd : Side) (v : ℕ × IRNode) (l r : BinaryTree (ℕ × IRNode)) :
    setChild sd ((BinaryTree.node v l r).child sd) (.node v l r) = .node v l r := by cases sd <;> rfl

theorem meets_extractChild {s : Mutator} {v : ℕ × IRNode} {l r : BinaryTree (ℕ × IRNode)}
    {extract : Ptr → Run Unit} (sd : Side) (ht : Holds s.heap (.node v l r))
    (hnodup : (addrs (.node v l r)).Nodup)
    (hextract : (BinaryTree.node v l r).child sd ≠ .nil →
      Meets (extract (ptr ((BinaryTree.node v l r).child sd))) s fun _ s' =>
        ∃ u, Extracted s s' ((BinaryTree.node v l r).child sd) u ∧
          (vals u, s'.idCounter) = extractStructure g.scopeId (vals ((BinaryTree.node v l r).child sd)) s.idCounter ∧
          ptr u = ptr ((BinaryTree.node v l r).child sd)) :
    Meets (extractChild g extract (some v.1) sd) s fun _ s' => ∃ u, ChildExtracted g s s' (.node v l r) sd u := by
  have hchild := ht.child sd
  have hchildNodup := hnodup.sublist (addrs_child_sublist _ sd)
  refine (meets_readNode (Q := fun c s' => c = ⟨v.2,ptr l,ptr r⟩ ∧ s = s') ht rfl ⟨rfl,rfl⟩).bind ?_
  rintro c s' ⟨rfl,rfl⟩
  rw [side_eq]
  have hside := setSide_same sd v l r
  have hrefl : Extracted s s (.node v l r) (setChild sd ((BinaryTree.node v l r).child sd) (.node v l r)) := by
    rw [setChild_same]
    exact Extracted.refl ht hnodup
  cases hc : (BinaryTree.node v l r).child sd with
  | nil =>
    refine Meets.onlyIf (fun h => by simp at h) fun _ => ⟨.nil,?_,?_,?_⟩
    · rw [hc] at hrefl
      exact hrefl
    · rw [hc]
      rfl
    · rw [hc]
  | node w cl cr =>
    rw [hc] at hchild hchildNodup hextract hside
    refine Meets.onlyIf (fun _ => ?_) fun h => absurd rfl h
    refine (meets_readNode (Q := fun c s' => c = ⟨w.2,ptr cl,ptr cr⟩ ∧ s = s') hchild rfl ⟨rfl,rfl⟩).bind ?_
    rintro c s' ⟨rfl,rfl⟩
    refine Meets.ite (fun hfix => ?_) fun hfix => ?_
    · refine (meets_newLeaf kUnknown FIXMETAG s).bind ?_
      rintro p s₁ ⟨u,hnew,rfl,hvals,hcounter,hrest⟩
      refine meets_onHeap (meets_update (Q := fun _ h₂ => Writes s₁.heap h₂ v.1
        (Cell.setSide sd (ptr u) ⟨v.2,ptr l,ptr r⟩)) (ht.keep hnew.ext) rfl fun h₂ hw => hw) ?_
      intro _ h₂ hw
      have hvlt : v.1 < s.heap.next := lt_next ht.1
      have hvu : v.1 ∉ addrs u := fun hmem => absurd (hnew.fresh _ hmem) (by omega)
      refine ⟨u,.ofChild sd ht hnodup hw.self (hnew.holds.congr fun a ha => hw.other a fun heq => hvu (heq ▸ ha))
        hnew.nodup (fun a ha => .inr (hnew.fresh a ha)) ?_ ?_ hrest,?_,?_⟩
      · exact hnew.ext.next.trans hw.next.ge
      · exact fun a ha hne _ => (hw.other a hne).trans (hnew.ext.cell a ha)
      · rw [hc, extractedChild, if_pos (by rw [dataType?_vals, hfix]), hvals]
        exact congrArg (Prod.mk _) hcounter
      · rw [hc]
        refine iff_of_false (fun hnil => ?_) (by simp)
        rw [hnil] at hvals
        cases hvals
    · refine (hextract (by simp)).mono ?_
      rintro - s' ⟨u,htree,hvals,hptr⟩
      have hvlt : v.1 < s.heap.next := lt_next ht.1
      have hvc : v.1 ∉ addrs (.node w cl cr) := by
        rw [addrs_node, List.nodup_cons, List.mem_append] at hnodup
        intro hmem
        rw [← hc] at hmem
        cases sd
        · exact hnodup.1 (.inl hmem)
        · exact hnodup.1 (.inr hmem)
      have hcell : s'.heap.cell v.1 = some (Cell.setSide sd (ptr u) ⟨v.2,ptr l,ptr r⟩) := by
        rw [htree.frame _ hvlt hvc, hptr, hside]
        exact ht.1
      refine ⟨u,.ofChild sd ht hnodup hcell htree.holds htree.nodup ?_ htree.next ?_ htree.rest,?_,?_⟩
      · rw [hc]
        exact htree.addrs
      · rw [hc]
        exact fun a ha _ hmem => htree.frame a ha hmem
      · rw [hc, extractedChild, if_neg (by rw [dataType?_vals]; simpa using hfix)]
        exact hvals
      · rw [hc, ← ptr_eq_none, hptr]
        simp

theorem Extracted.trans {s s₁ s₂ : Mutator} {t u w : BinaryTree (ℕ × IRNode)} (h : Extracted s s₁ t u)
    (h' : Extracted s₁ s₂ u w) : Extracted s s₂ t w := by
  have hnext := h.next
  refine ⟨h'.holds,h'.nodup,fun a ha => ?_,h.next.trans h'.next,fun a ha hmem => ?_,h'.rest.trans h.rest⟩
  · rcases h'.addrs a ha with hu | hu
    · exact h.addrs a hu
    · exact .inr (by omega)
  · have hu : a ∉ TreeHeap.addrs u := fun hu => (h.addrs a hu).elim hmem (by omega)
    exact (h'.frame a (by omega) hu).trans (h.frame a ha hmem)

theorem meets_extractStructureRec {s : Mutator} {t : BinaryTree (ℕ × IRNode)} (ht : Holds s.heap t)
    (hnodup : (addrs t).Nodup) (hne : t ≠ .nil) {fuel : ℕ} (hfuel : t.height ≤ fuel) :
    Meets (extractStructureRec g fuel (ptr t)) s fun _ s' => ∃ u, Extracted s s' t u ∧
      (vals u, s'.idCounter) = extractStructure g.scopeId (vals t) s.idCounter ∧ ptr u = ptr t := by
  induction t generalizing fuel s with
  | nil => exact absurd rfl hne
  | node v l r ihl ihr =>
    simp only [height] at hfuel
    obtain ⟨k,rfl⟩ : ∃ k, fuel = k + 1 := ⟨fuel - 1,by omega⟩
    have hndl := hnodup.sublist (addrs_child_sublist _ .left)
    have hndr := hnodup.sublist (addrs_child_sublist _ .right)
    refine (meets_extractChild .left ht hnodup fun hl => ihl ht.2.1 hndl hl (by omega)).bind ?_
    rintro - s₁ ⟨ul,hul⟩
    refine (meets_extractChild .right hul.tree.holds hul.tree.nodup fun hr =>
      ihr hul.tree.holds.2.2 hndr hr (by omega)).bind ?_
    rintro - s₂ ⟨ur,hur⟩
    have hboth := hul.tree.trans hur.tree
    have hvals : extractStructure g.scopeId (vals (.node v l r)) s.idCounter =
        (.node (if l = .nil ∧ r = .nil then extractLeaf v.2 else v.2) (vals ul) (vals ur), s₂.idCounter) := by
      have hl := hul.vals
      have hr := hur.vals
      simp only [child_left, child_right] at hl hr
      rw [vals_node, extractStructure_node, ← hl, ← hr]
      simp only [vals_eq_nil]
    have hleaf : ul = .nil ∧ ur = .nil ↔ l = .nil ∧ r = .nil := and_congr hul.isNil hur.isNil
    refine (meets_readNode (Q := fun c s' => c = ⟨v.2,ptr ul,ptr ur⟩ ∧ s₂ = s') hboth.holds rfl ⟨rfl,rfl⟩).bind ?_
    rintro c s' ⟨rfl,rfl⟩
    have hnone : ((ptr ul).isNone = true ∧ (ptr ur).isNone = true) ↔ l = .nil ∧ r = .nil := by
      rw [Option.isNone_iff_eq_none, Option.isNone_iff_eq_none, ptr_eq_none, ptr_eq_none, hleaf]
    refine Meets.onlyIf (fun hc => ?_) fun hc => ?_
    · have hlr := hnone.mp hc
      obtain ⟨hul',hur'⟩ := hleaf.mpr hlr
      refine meets_onHeap (meets_update (Q := fun _ h₃ => Writes s₂.heap h₃ v.1 ⟨extractLeaf v.2,ptr ul,ptr ur⟩)
        hboth.holds rfl fun h₃ hw => hw) ?_
      intro _ h₃ hw
      rw [hvals, if_pos hlr]
      subst hul' hur'
      refine ⟨.node (v.1, extractLeaf v.2) .nil .nil,hboth.trans ⟨⟨hw.self,trivial,trivial⟩,by simp,?_,?_,?_,rfl⟩,rfl,rfl⟩
      · exact fun a ha => .inl ha
      · exact hw.next.ge
      · exact fun a _ hmem => hw.other a fun heq => hmem (by simp [heq, setChild])
    · rw [hvals, if_neg fun h => hc (hnone.mpr h)]
      exact ⟨.node v ul ur,hboth,rfl,rfl⟩

theorem meets_extractStructureAt {s : Mutator} {t : BinaryTree (ℕ × IRNode)} (ht : Holds s.heap t)
    (hnodup : (addrs t).Nodup) (hne : t ≠ .nil) :
    Meets (extractStructureAt g (ptr t)) s fun _ s' => ∃ u, Extracted s s' t u ∧
      (vals u, s'.idCounter) = extractStructure g.scopeId (vals t) s.idCounter ∧ ptr u = ptr t :=
  meets_deeply (meets_extractStructureRec ht hnodup hne (ht.height_le.trans (Nat.le_succ _)))

theorem meets_searchChild {search : Ptr → Mem Ptr} {t : BinaryTree (ℕ × IRNode)} {h : Heap IRNode}
    {Q : Ptr → Heap IRNode → Prop} (hnil : t = .nil → Q none h)
    (hnode : t ≠ .nil → Meets (search (ptr t)) h Q) : Meets (searchChild search (ptr t)) h Q := by
  cases t with
  | nil => exact Meets.pure (hnil rfl)
  | node v l r => exact hnode (by simp)

/-- A node that is not in the tree has no parent there. -/
theorem meets_locateParentRec_missing {h : Heap IRNode} {t : BinaryTree (ℕ × IRNode)} (ht : Holds h t)
    (hne : t ≠ .nil) {a : ℕ} (ha : a ∉ addrs t) {fuel : ℕ} (hfuel : t.height ≤ fuel) :
    Meets (locateParentRec (some a) fuel (ptr t)) h fun p h' => p = none ∧ h' = h := by
  induction t generalizing fuel with
  | nil => exact absurd rfl hne
  | node v l r ihl ihr =>
    simp only [height] at hfuel
    obtain ⟨k,rfl⟩ : ∃ k, fuel = k + 1 := ⟨fuel - 1,by omega⟩
    rw [addrs_node, List.mem_cons, List.mem_append, not_or, not_or] at ha
    refine (meets_deref (Q := fun c h' => c = ⟨v.2,ptr l,ptr r⟩ ∧ h = h') ht rfl ⟨rfl,rfl⟩).bind ?_
    rintro c h' ⟨rfl,rfl⟩
    refine Meets.ite (fun hc => ?_) fun _ => ?_
    · rcases hc with ⟨-,hc⟩ | ⟨-,hc⟩
      · exact absurd (mem_addrs_of_ptr hc) ha.2.1
      · exact absurd (mem_addrs_of_ptr hc) ha.2.2
    · refine (meets_searchChild (Q := fun p h' => p = none ∧ h' = h) (fun _ => ⟨rfl,rfl⟩) fun hl =>
        ihl ht.2.1 hl ha.2.1 (by omega)).bind ?_
      rintro p h' ⟨rfl,rfl⟩
      refine Meets.ite (fun hc => by simp at hc) fun _ => ?_
      exact meets_searchChild (fun _ => ⟨rfl,rfl⟩) fun hr => ihr ht.2.2 hr ha.2.2 (by omega)

/-- The parent of a node below the root is found. -/
theorem meets_locateParentRec {h : Heap IRNode} {t : BinaryTree (ℕ × IRNode)} (ht : Holds h t)
    (hnodup : (addrs t).Nodup) {p : Path} {sd : Side} {a : ℕ} (hp : ptr (t.subtreeAt (p ++ [sd])) = some a)
    {fuel : ℕ} (hfuel : t.height ≤ fuel) :
    Meets (locateParentRec (some a) fuel (ptr t)) h fun q h' => q = ptr (t.subtreeAt p) ∧ h' = h := by
  induction t generalizing fuel p with
  | nil => simp at hp
  | node v l r ihl ihr =>
    simp only [height] at hfuel
    obtain ⟨k,rfl⟩ : ∃ k, fuel = k + 1 := ⟨fuel - 1,by omega⟩
    refine (meets_deref (Q := fun c h' => c = ⟨v.2,ptr l,ptr r⟩ ∧ h = h') ht rfl ⟨rfl,rfl⟩).bind ?_
    rintro c h' ⟨rfl,rfl⟩
    have hroot : ((ptr l).isSome = true ∧ ptr l = some a) ∨ ((ptr r).isSome = true ∧ ptr r = some a) ↔ p = [] := by
      constructor
      · rintro (⟨-,hl⟩ | ⟨-,hr⟩)
        · have heq := path_unique hnodup hp (q := [.left]) hl
          rcases p with _ | ⟨sd',p⟩ <;> simp at heq ⊢
        · have heq := path_unique hnodup hp (q := [.right]) hr
          rcases p with _ | ⟨sd',p⟩ <;> simp at heq ⊢
      · rintro rfl
        cases sd
        · exact .inl ⟨by rw [show ptr l = some a from hp]; rfl,hp⟩
        · exact .inr ⟨by rw [show ptr r = some a from hp]; rfl,hp⟩
    refine Meets.ite (fun hc => ?_) fun hc => ?_
    · rw [hroot.mp hc]
      exact Meets.pure ⟨rfl,rfl⟩
    · have hpne := fun hnil => hc (hroot.mpr hnil)
      rw [addrs_node, List.nodup_cons, List.nodup_append] at hnodup
      obtain ⟨-,hndl,hndr,hlr⟩ := hnodup
      rcases p with _ | ⟨_ | _,p⟩
      · exact absurd rfl hpne
      · have hpl : ptr (l.subtreeAt (p ++ [sd])) = some a := hp
        have hfound : ptr (l.subtreeAt p) ≠ none := by
          intro hnone
          rw [ptr_eq_none] at hnone
          rw [subtreeAt_append, hnone] at hpl
          simp at hpl
        refine (meets_searchChild (Q := fun q h' => q = ptr (l.subtreeAt p) ∧ h' = h) (fun hnil => ?_) fun _ =>
          ihl ht.2.1 hndl hpl (by omega)).bind ?_
        · rw [hnil] at hpl
          simp at hpl
        · rintro q h' ⟨rfl,rfl⟩
          refine Meets.ite (fun _ => Meets.pure ⟨rfl,rfl⟩) fun hnone => ?_
          exact absurd (by simpa using hnone) hfound
      · have hpr : ptr (r.subtreeAt (p ++ [sd])) = some a := hp
        have hmiss : a ∉ addrs l := fun hl => hlr a hl a (mem_addrs_subtreeAt hpr) rfl
        refine (meets_searchChild (Q := fun q h' => q = none ∧ h' = h) (fun _ => ⟨rfl,rfl⟩) fun hl =>
          meets_locateParentRec_missing ht.2.1 hl hmiss (by omega)).bind ?_
        rintro q h' ⟨rfl,rfl⟩
        refine Meets.ite (fun hc => by simp at hc) fun _ => ?_
        refine meets_searchChild (fun hnil => ?_) fun _ => ihr ht.2.2 hndr hpr (by omega)
        rw [hnil] at hpr
        simp at hpr

structure Replaced (s s' : Mutator) (t i u : BinaryTree (ℕ × IRNode)) : Prop where
  holds : Holds s'.heap u
  nodup : (addrs u).Nodup
  addrs : ∀ a ∈ addrs u, a ∈ addrs t ∨ a ∈ TreeHeap.addrs i
  next : s'.heap.next = s.heap.next
  frame : ∀ a, a ∉ TreeHeap.addrs t → s'.heap.cell a = s.heap.cell a
  rest : s'.rest = s.rest

theorem subtreeAt_ne_nil_of_append {t : BinaryTree (ℕ × IRNode)} {p q : Path} {a : ℕ}
    (h : ptr (t.subtreeAt (p ++ q)) = some a) : t.subtreeAt p ≠ .nil := by
  intro hnil
  rw [subtreeAt_append, hnil, subtreeAt_nil] at h
  cases h

theorem meets_replace {s : Mutator} {t i : BinaryTree (ℕ × IRNode)} (ht : Holds s.heap t)
    (hnodup : (addrs t).Nodup) {p : Path} {sd : Side} {a : ℕ} (hp : ptr (t.subtreeAt (p ++ [sd])) = some a)
    (hi : Holds s.heap i) (hinodup : (addrs i).Nodup) (hdisj : ∀ b ∈ addrs i, b ∉ addrs t) :
    Meets (replace (ptr t) (some a) (ptr i)) s fun _ s' => Replaced s s' t i (t.replaceAt (p ++ [sd]) i) := by
  have hne := subtreeAt_ne_nil_of_append hp
  obtain ⟨v,l,r,hparent⟩ := exists_node_of_ne_nil hne
  have hvt : v.1 ∈ addrs t := mem_addrs_subtreeAt (p := p) (by rw [hparent, ptr_node])
  have hlocate : Meets (locateParent (ptr t) (some a)) s.heap fun q h' => q = ptr (t.subtreeAt p) ∧ h' = s.heap :=
    meets_withFuel (meets_locateParentRec ht hnodup hp (ht.height_le.trans (Nat.le_succ _)))
  refine (meets_onHeap (R := fun q s' => q = ptr (t.subtreeAt p) ∧ s = s') hlocate ?_).bind ?_
  · rintro q h' ⟨rfl,rfl⟩
    exact ⟨rfl,rfl⟩
  rintro q s' ⟨rfl,rfl⟩
  have hsub := ht.subtreeAt p
  rw [hparent] at hsub ⊢
  refine Meets.ite (fun h => by simp at h) fun _ => ?_
  refine (meets_readNode (Q := fun c s' => c = ⟨v.2,ptr l,ptr r⟩ ∧ s = s') hsub rfl ⟨rfl,rfl⟩).bind ?_
  rintro c s' ⟨rfl,rfl⟩
  have hreplaced : ∀ h', Writes s.heap h' v.1 (Cell.setSide sd (ptr i) ⟨v.2,ptr l,ptr r⟩) →
      Replaced s { s with heap := h' } t i (t.replaceAt (p ++ [sd]) i) := by
    intro h' hw
    have hvi : v.1 ∉ addrs i := fun h => hdisj _ h hvt
    have hsubnodup := hnodup.sublist (addrs_subtreeAt_sublist t p)
    rw [hparent, addrs_node, List.nodup_cons, List.mem_append, not_or] at hsubnodup
    have hholds : Holds h' (t.replaceAt (p ++ [sd]) i) := by
      rw [replaceAt_append, hparent]
      cases sd
      · exact ht.write hnodup hparent hi hsub.2.2 hvi hsubnodup.1.2 hw
      · exact ht.write hnodup hparent hsub.2.1 hi hsubnodup.1.1 hvi hw
    exact ⟨hholds,nodup_replaceAt hnodup hinodup fun b hb hbt => absurd hbt (hdisj b hb),fun b hb => mem_addrs_replaceAt hb,hw.next,
      fun b hb => hw.other b fun heq => hb (heq ▸ hvt),rfl⟩
  have hchild : ptr ((BinaryTree.node v l r).child sd) = some a := by
    rw [← hparent]
    rw [subtreeAt_append] at hp
    exact hp
  cases sd with
  | left =>
    refine Meets.ite (fun _ => ?_) fun h => ?_
    · exact meets_onHeap (meets_update (Q := fun _ h' => Writes s.heap h' v.1 ⟨v.2,ptr i,ptr r⟩) hsub rfl
        fun h' hw => hw) fun _ h' hw => hreplaced h' hw
    · rw [child_left] at hchild
      exact absurd ⟨by rw [hchild]; rfl,hchild⟩ h
  | right =>
    refine Meets.ite (fun h => ?_) fun _ => Meets.ite (fun _ => ?_) fun h => ?_
    · have hleft : ptr (t.subtreeAt (p ++ [.left])) = some a := by
        rw [subtreeAt_append, hparent]
        exact h.2
      have heq := path_unique hnodup hp hleft
      simp at heq
    · exact meets_onHeap (meets_update (Q := fun _ h' => Writes s.heap h' v.1 ⟨v.2,ptr l,ptr i⟩) hsub rfl
        fun h' hw => hw) fun _ h' hw => hreplaced h' hw
    · rw [child_right] at hchild
      exact absurd ⟨by rw [hchild]; rfl,hchild⟩ h

structure Grafted (g : Garbage) (s s' : Mutator) (root : BinaryTree (ℕ × IRNode)) (p : Path)
    (i backup : BinaryTree (ℕ × IRNode)) : Prop where
  holds : Holds s'.heap backup
  vals : IR.erase (vals backup) = deepCopy ((vals root).replaceAt p (vals i))
  ids : HasCopyIds g backup
  fresh : ∀ a ∈ addrs backup, s.heap.next ≤ a
  next : s.heap.next ≤ s'.heap.next
  frame : ∀ a < s.heap.next, a ∉ addrs i → s'.heap.cell a = s.heap.cell a
  rest : s'.rest = s.rest

theorem vals_replaceAt (t u : BinaryTree (ℕ × IRNode)) (p : Path) :
    vals (t.replaceAt p u) = (vals t).replaceAt p (vals u) := replaceAt_map ..

theorem meets_graft {s : Mutator} {root i : BinaryTree (ℕ × IRNode)} (hroot : Holds s.heap root)
    (hnodup : (addrs root).Nodup) {p : Path} (hpne : p ≠ []) {a : ℕ} (hp : ptr (root.subtreeAt p) = some a)
    (hi : Holds s.heap i) (hinodup : (addrs i).Nodup) :
    Meets (graft g (ptr root) (some a) (ptr i)) s fun out s' => ∃ backup,
      Grafted g s s' root p i backup ∧ out = (ptr backup, mutantHash ((vals root).replaceAt p (vals i))) := by
  have hrootne : root ≠ .nil := by
    rintro rfl
    simp at hp
  refine (meets_deepCopyWithRecord hroot hnodup hrootne).bind ?_
  rintro q s₁ ⟨u,hu,rfl⟩
  refine (Meets.get (Q := fun s' t => s' = s₁ ∧ t = s₁) ⟨rfl,rfl⟩).bind ?_
  rintro s' t ⟨rfl,rfl⟩
  obtain ⟨p',sd,rfl⟩ : ∃ p' sd, p = p' ++ [sd] := ⟨p.dropLast,p.getLast hpne,(List.dropLast_append_getLast hpne).symm⟩
  obtain ⟨b,hb⟩ : ∃ b, ptr (u.subtreeAt (p' ++ [sd])) = some b := by
    rw [← Option.isSome_iff_exists, Option.isSome_iff_ne_none, Ne, ptr_eq_none, ← vals_eq_nil, vals,
      ← subtreeAt_map]
    change (vals u).subtreeAt (p' ++ [sd]) ≠ .nil
    rw [hu.vals, vals, subtreeAt_map, Ne, map_eq_nil, ← ptr_eq_none, hp]
    simp
  rw [hu.found _ hp, hb]
  have hi₁ := hi.keep hu.new.ext
  have hfresh : ∀ b ∈ addrs i, b ∉ addrs u := fun b hb hmem => by
    have hlt := hi.lt hb
    have hge := hu.new.fresh b hmem
    omega
  refine (meets_replace hu.new.holds hu.new.nodup hb hi₁ hinodup hfresh).bind ?_
  rintro - s₂ hr
  have hne : u ≠ .nil := subtreeAt_ne_nil_of_append (p := []) hb
  have hptr := ptr_replaceAt_below u i hpne
  have htreene := replaceAt_ne_nil hne hpne i
  generalize htree : u.replaceAt (p' ++ [sd]) i = tree at hr hptr htreene
  rw [← hptr]
  refine (meets_onHeap (R := fun q s₃ => ∃ c, IsCopy g s₂.heap s₃.heap tree c ∧ ptr c = q ∧ s₃.rest = s₂.rest)
    (meets_deepCopyAt hr.holds htreene) fun q h₃ h => ?_).bind ?_
  · obtain ⟨c,hc,hq⟩ := h
    exact ⟨c,hc,hq,rfl⟩
  rintro q s₃ ⟨backup,hbackup,rfl,hrest₃⟩
  refine (meets_extractStructureAt (hr.holds.keep hbackup.new.ext) hr.nodup htreene).bind ?_
  rintro - s₄ ⟨w,hw,hwvals,hwptr⟩
  rw [← hwptr]
  refine (meets_hashOf (Q := fun h s' => h = IR.hash (vals w) ∧ s₄ = s') hw.holds ⟨rfl,rfl⟩).bind ?_
  rintro h s' ⟨rfl,rfl⟩
  have hvals : vals tree = (vals root).replaceAt (p' ++ [sd]) (vals i) := by rw [← htree, vals_replaceAt, hu.vals]
  have hnext₁ := hu.new.ext.next
  have hnext₂ := hr.next
  have hnext₃ := hbackup.new.ext.next
  refine Meets.pure ⟨backup,⟨?_,?_,hbackup.ids,fun a ha => ?_,?_,fun a ha hmem => ?_,?_⟩,?_⟩
  · refine hbackup.new.holds.congr fun a ha => hw.frame a (hbackup.new.holds.lt ha) fun hmem => ?_
    have hlt := hr.holds.lt hmem
    have hge := hbackup.new.fresh a ha
    omega
  · rw [hbackup.vals, hvals]
  · have hge := hbackup.new.fresh a ha
    omega
  · have hnext₄ := hw.next
    omega
  · have hu' : a ∉ addrs u := fun h => by
      have hge := hu.new.fresh a h
      omega
    have htree' : a ∉ addrs tree := fun h => (hr.addrs a h).elim hu' hmem
    rw [hw.frame a (by omega) htree', hbackup.new.ext.cell a (by omega), hr.frame a hu', hu.new.ext.cell a ha]
  · exact hw.rest.trans (hrest₃.trans (hr.rest.trans hu.rest))
  · have hhash := mutantHash_eq (congrArg IR.erase hvals) g.scopeId s₃.idCounter
    rw [← hwvals] at hhash
    exact congrArg (Prod.mk _) hhash

end

end PolyGlot
