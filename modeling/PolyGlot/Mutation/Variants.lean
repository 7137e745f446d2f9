import PolyGlot.Mutation.Library

set_option autoImplicit false

/-! # The strategies in memory

`MutateIR` in memory makes, on cells of its own, the variants that the function
on values gives. The trees of the library and the node to mutate keep their
cells: a node of the library is whole again once its head was copied.
-/
namespace PolyGlot

open BinaryTree TreeHeap Prog

def Shelves.values (lib : Shelves) : Entries := fun T => (lib T).map vals

def emptyNode : IRNode := ⟨0x1234567,none,.string [],.kDataDefault,.kScopeDefault,0,0⟩

theorem emptyIR_eq : emptyIR = .node emptyNode .nil .nil := rfl

structure Ready (b : ℕ) (lib : Shelves) (s : Mutator) : Prop where
  inv : LibraryInv s lib
  below : ∀ T, ∀ u ∈ lib T, ∀ a ∈ addrs u, a < b
  bound : b ≤ s.heap.next
  empty : s.emptyIr = none ∨ ∃ e n, s.emptyIr = some e ∧ Holds s.heap (.node (e, n) .nil .nil) ∧ n.erase = emptyNode

structure Stepped (b : ℕ) (lib : Shelves) (s s' : Mutator) : Prop where
  ready : Ready b lib s'
  ext : Extends s.heap s'.heap
  lists : s'.irLibrary = s.irLibrary ∧ s'.irLibraryHash = s.irLibraryHash
  empty : s'.emptyIr = s.emptyIr ∨ s.emptyIr = none ∧ ∃ e, s'.emptyIr = some e ∧ s.heap.next ≤ e

section
variable {b : ℕ} {lib : Shelves}

theorem Stepped.trans {s₁ s₂ s₃ : Mutator} (h : Stepped b lib s₁ s₂) (h' : Stepped b lib s₂ s₃) :
    Stepped b lib s₁ s₃ := by
  refine ⟨h'.ready,h.ext.trans h'.ext,⟨h'.lists.1.trans h.lists.1,h'.lists.2.trans h.lists.2⟩,?_⟩
  rcases h'.empty with heq | ⟨hnone,e,he,hle⟩
  · rw [heq]
    exact h.empty
  · rcases h.empty with heq | ⟨-,e',he',-⟩
    · exact .inr ⟨heq ▸ hnone,e,he,h.ext.next.trans hle⟩
    · rw [he'] at hnone
      cases hnone

/-- A step that only made cells. -/
theorem Ready.stepped {s s' : Mutator} (h : Ready b lib s) (hext : Extends s.heap s'.heap)
    (hlist : s'.irLibrary = s.irLibrary) (hhash : s'.irLibraryHash = s.irLibraryHash)
    (hempty : s'.emptyIr = s.emptyIr) : Stepped b lib s s' := by
  refine ⟨⟨h.inv.keep (fun T u hu a ha => hext.cell a ((h.inv.holds T u hu).lt ha)) hlist hhash,h.below,
    h.bound.trans hext.next,?_⟩,hext,⟨hlist,hhash⟩,.inl hempty⟩
  rw [hempty]
  exact h.empty.imp id fun ⟨e,n,he,hcell,hn⟩ => ⟨e,n,he,hcell.keep hext,hn⟩

theorem Ready.withRand {s : Mutator} (h : Ready b lib s) (r : Rand) : Ready b lib { s with rand := r } := by
  have hstep : Stepped b lib s { s with rand := r } := h.stepped (Extends.refl _) rfl rfl rfl
  exact hstep.ready

theorem Ready.refl {s : Mutator} (h : Ready b lib s) : Stepped b lib s s :=
  h.stepped (Extends.refl _) rfl rfl rfl

structure Fresh (s₀ s : Mutator) (u : BinaryTree (ℕ × IRNode)) : Prop where
  holds : Holds s.heap u
  nodup : (addrs u).Nodup
  fresh : ∀ a ∈ addrs u, s₀.heap.next ≤ a ∧ s.emptyIr ≠ some a

theorem Fresh.step {s₀ s s' : Mutator} {u : BinaryTree (ℕ × IRNode)} (h : Fresh s₀ s u)
    (hs : Stepped b lib s s') : Fresh s₀ s' u := by
  refine ⟨h.holds.keep hs.ext,h.nodup,fun a ha => ⟨(h.fresh a ha).1,fun heq => ?_⟩⟩
  rcases hs.empty with hsame | ⟨-,e,he,hle⟩
  · exact (h.fresh a ha).2 (hsame ▸ heq)
  · rw [he] at heq
    cases heq
    have hlt := h.holds.lt ha
    omega

/-- Older freshness. -/
theorem Fresh.since {s₀ s₁ s : Mutator} {u : BinaryTree (ℕ × IRNode)} (h : Fresh s₁ s u)
    (hle : s₀.heap.next ≤ s₁.heap.next) : Fresh s₀ s u :=
  ⟨h.holds,h.nodup,fun a ha => ⟨hle.trans (h.fresh a ha).1,(h.fresh a ha).2⟩⟩

/-- A tree of cells just made does not contain the static. -/
theorem Ready.fresh {s : Mutator} (h : Ready b lib s) {h' : Heap IRNode} {u : BinaryTree (ℕ × IRNode)}
    (hu : NewTree s.heap h' u) : Fresh s { s with heap := h' } u := by
  refine ⟨hu.holds,hu.nodup,fun a ha => ⟨hu.fresh a ha,fun heq => ?_⟩⟩
  rcases h.empty with hnone | ⟨e,n,he,hcell,-⟩
  · rw [hnone] at heq
    cases heq
  · rw [he] at heq
    cases heq
    have hlt := lt_next hcell.1
    have hge := hu.fresh _ ha
    omega

variable {g : Garbage}

def Shelved (b : ℕ) (s : Mutator) (u : BinaryTree (ℕ × IRNode)) : Prop :=
  Holds s.heap u ∧ ∀ a ∈ addrs u, a < b ∨ s.emptyIr = some a

theorem meets_getRandomIRAt {s : Mutator} (h : Ready b lib s) (T : IRType) :
    Meets (getRandomIRAt g T) s fun p s' => Stepped b lib s s' ∧
      s'.rand = (getRandomIR lib.values T s.rand).2 ∧ ∃ u, ptr u = p ∧ u ≠ .nil ∧ Shelved b s' u ∧
        IR.erase (vals u) = IR.erase (getRandomIR lib.values T s.rand).1 := by
  have hstatic : Meets (onlyIf s.emptyIr.isNone do
      let e ← newLeaf g 0x1234567 []
      modify ({ · with emptyIr := e })) s fun _ s' => Stepped b lib s s' ∧ s'.rand = s.rand ∧
        ∃ e n, s'.emptyIr = some e ∧ Holds s'.heap (.node (e, n) .nil .nil) ∧ n.erase = emptyNode := by
    refine Meets.onlyIf (fun hnone => ?_) fun hsome => ⟨h.refl,rfl,?_⟩
    · refine (meets_newLeaf 0x1234567 [] s).bind ?_
      rintro p s₁ ⟨u,hnew,rfl,hvals,-,hrest⟩
      simp only [Mutator.rest, Prod.mk.injEq] at hrest
      obtain ⟨hlist,hhash,hempty,hrand⟩ := hrest
      obtain ⟨⟨e,n⟩,l,r,rfl⟩ : ∃ v l r, u = .node v l r := by
        cases u with
        | nil => cases hvals
        | node v l r => exact ⟨v,l,r,rfl⟩
      rw [vals_node, IR.ofData, BinaryTree.node.injEq, vals_eq_nil, vals_eq_nil] at hvals
      obtain ⟨rfl,rfl,rfl⟩ := hvals
      have hstep := h.stepped hnew.ext hlist hhash hempty
      have hle := hnew.fresh e (by simp)
      refine Meets.modify ⟨⟨⟨?_,h.below,hstep.ready.bound,.inr ⟨e,_,rfl,hnew.holds,rfl⟩⟩,hnew.ext,
        ⟨hlist,hhash⟩,.inr ⟨Option.isNone_iff_eq_none.mp hnone,e,rfl,hle⟩⟩,hrand,⟨e,_,rfl,hnew.holds,rfl⟩⟩
      exact hstep.ready.inv.keep (fun _ _ _ _ _ => rfl) rfl rfl
    · exact h.empty.resolve_left fun hnone => hsome (by rw [hnone]; rfl)
  refine (Meets.get (Q := fun s' t => s = s' ∧ s = t) ⟨rfl,rfl⟩).bind ?_
  rintro _ _ ⟨rfl,rfl⟩
  refine hstatic.bind ?_
  rintro - s₁ ⟨hstep,hrand,e,n,he,hcell,hn⟩
  refine (Meets.get (Q := fun s' t => s₁ = s' ∧ s₁ = t) ⟨rfl,rfl⟩).bind ?_
  rintro _ _ ⟨rfl,rfl⟩
  have hentries := hstep.ready.inv.entries T
  cases hlib : lib T with
  | nil =>
    rw [hlib, List.map_nil] at hentries
    rw [if_pos hentries]
    refine Meets.pure ⟨hstep,?_,.node (e, n) .nil .nil,he.symm,by simp,⟨hcell,by simp [he]⟩,?_⟩
    · simp [getRandomIR, Shelves.values, hlib, hrand]
    · simp only [getRandomIR, Shelves.values, hlib, List.map_nil]
      exact congrArg (fun m => BinaryTree.node m .nil .nil) hn
  | cons u us =>
    have hlen : (s₁.irLibrary T).length = (lib T).length := by rw [hentries, List.length_map]
    have hpos : (lib T).length ≠ 0 := by rw [hlib]; simp
    rw [if_neg (by rw [hentries, hlib]; simp)]
    refine (meets_getRandInt (Q := fun i s' => i = s.rand.head % (lib T).length ∧
      s' = { s₁ with rand := s.rand.tail }) (by omega) ⟨by rw [hlen, hrand],by rw [hrand]⟩).bind ?_
    rintro i s' ⟨rfl,rfl⟩
    have hi : s.rand.head % (lib T).length < (lib T).length := Nat.mod_lt _ (by omega)
    generalize hidx : s.rand.head % (lib T).length = i at hi
    have hmem := List.getElem_mem hi
    have hvalue : getRandomIR lib.values T s.rand = (vals (lib T)[i], s.rand.tail) := by
      have hvals : lib.values T = vals u :: us.map vals := by rw [Shelves.values, hlib, List.map_cons]
      have hlen' : (vals u :: us.map vals).length = (lib T).length := by rw [hlib]; simp
      rw [getRandomIR, hvals]
      simp only [hlen', hidx]
      rw [← hvals, Shelves.values, List.getD_eq_getElem?_getD, List.getElem?_map, List.getElem?_eq_getElem hi]
      rfl
    refine Meets.pure ⟨?_,by rw [hvalue],(lib T)[i],?_,?_,⟨hstep.ready.inv.holds T _ hmem,
      fun a ha => .inl (h.below T _ hmem a ha)⟩,by rw [hvalue]⟩
    · exact hstep.trans (hstep.ready.stepped (Extends.refl _) rfl rfl rfl)
    · rw [hentries, List.getD_eq_getElem?_getD, List.getElem?_map, List.getElem?_eq_getElem hi]
      rfl
    · intro hnil
      have htype := hstep.ready.inv.type T _ hmem
      rw [hnil] at htype
      cases htype

theorem type?_vals {v : ℕ × IRNode} {l r : BinaryTree (ℕ × IRNode)} :
    IR.type? (vals (.node v l r)) = some v.2.type := rfl

theorem meets_sameInterfaceAt {s : Mutator} {t u : BinaryTree (ℕ × IRNode)} (ht : Holds s.heap t)
    (hu : Holds s.heap u) {Q : Bool → Mutator → Prop} (hQ : Q (sameInterface (vals t) (vals u)) s) :
    Meets (sameInterfaceAt (ptr t) (ptr u)) s Q := by
  cases t with
  | nil => cases u with
    | nil => exact Meets.pure hQ
    | node w l r => exact Meets.pure hQ
  | node v l r => cases u with
    | nil => exact Meets.pure hQ
    | node w l' r' =>
      refine (meets_typeOf (Q := fun T s' => T = v.2.type ∧ s = s') ht rfl ⟨rfl,rfl⟩).bind ?_
      rintro T s' ⟨rfl,rfl⟩
      refine (meets_typeOf (Q := fun T s' => T = w.2.type ∧ s = s') hu rfl ⟨rfl,rfl⟩).bind ?_
      rintro T s' ⟨rfl,rfl⟩
      refine Meets.pure ?_
      simp only [sameInterface, type?_vals, Option.some.injEq] at hQ
      exact hQ

/-- The head of a node is copied and the node is as it was. -/
theorem meets_copyHead {h : Heap IRNode} {v : ℕ × IRNode} {l r : BinaryTree (ℕ × IRNode)}
    (ht : Holds h (.node v l r)) : Meets (copyHead g (some v.1)) h fun p h' =>
      ∃ m k, p = some m ∧ k.erase = v.2.copied ∧ NewTree h h' (.node (m, k) .nil .nil) := by
  have hvlt := lt_next ht.1
  refine (meets_deref (Q := fun c h' => c = ⟨v.2,ptr l,ptr r⟩ ∧ h = h') ht rfl ⟨rfl,rfl⟩).bind ?_
  rintro c h' ⟨rfl,rfl⟩
  refine (meets_updateCell (Q := fun _ h₁ => Writes h h₁ v.1 ⟨v.2,none,ptr r⟩) ht.1 fun _ hw => hw).bind ?_
  rintro - h₁ hw₁
  refine (meets_updateCell (Q := fun _ h₂ => Writes h₁ h₂ v.1 ⟨v.2,none,none⟩) hw₁.self fun _ hw => hw).bind ?_
  rintro - h₂ hw₂
  have halone : Holds h₂ (.node v .nil .nil) := ⟨hw₂.self,trivial,trivial⟩
  refine (meets_deepCopyAt (g := g) halone (by simp)).bind ?_
  rintro p h₃ ⟨u,hu,rfl⟩
  obtain ⟨m,k,rfl,hk⟩ : ∃ m k, u = .node (m, k) .nil .nil ∧ k.erase = v.2.copied := by
    have hvals := hu.vals
    cases u with
    | nil => cases hvals
    | node w ul ur =>
      rw [vals_node, vals_node, erase_node, deepCopy_node, BinaryTree.node.injEq] at hvals
      obtain ⟨hn,hl,hr⟩ := hvals
      rw [vals_eq_nil.mp (erase_eq_nil.mp hl), vals_eq_nil.mp (erase_eq_nil.mp hr)]
      exact ⟨w.1,w.2,rfl,hn⟩
  have hnext₁ := hw₁.next
  have hnext₂ := hw₂.next
  have hcell₃ : h₃.cell v.1 = some ⟨v.2,none,none⟩ := (hu.new.ext.cell _ (by omega)).trans hw₂.self
  refine (meets_updateCell (Q := fun _ h₄ => Writes h₃ h₄ v.1 ⟨v.2,ptr l,none⟩) hcell₃ fun _ hw => hw).bind ?_
  rintro - h₄ hw₄
  refine (meets_updateCell (Q := fun _ h₅ => Writes h₄ h₅ v.1 ⟨v.2,ptr l,ptr r⟩) hw₄.self fun _ hw => hw).bind ?_
  rintro - h₅ hw₅
  have hnext₃ := hu.new.ext.next
  have hnext₄ := hw₄.next
  have hnext₅ := hw₅.next
  have hge : h₂.next ≤ m := hu.new.fresh m (by simp)
  refine Meets.pure ⟨m,k,rfl,hk,⟨by omega,fun a ha => ?_⟩,?_,hu.new.nodup,fun a ha => ?_⟩
  · by_cases hav : a = v.1
    · rw [hav, hw₅.self, ht.1]
    · rw [hw₅.other a hav, hw₄.other a hav, hu.new.ext.cell a (by omega), hw₂.other a hav, hw₁.other a hav]
  · refine hu.new.holds.congr fun a ha => ?_
    have hage := hu.new.fresh a ha
    rw [hw₅.other a (by omega), hw₄.other a (by omega)]
  · have hage := hu.new.fresh a ha
    omega

/-- A copy of the child of `cur` goes under the new root. -/
theorem meets_copyChildInto {h₀ h : Heap IRNode} {cur l r : BinaryTree (ℕ × IRNode)} {m : ℕ} {k : IRNode}
    (sd : Side) (hcur : Holds h₀ cur) (hne : cur ≠ .nil) (hres : NewTree h₀ h (.node (m, k) l r))
    (hfree : (BinaryTree.node (m, k) l r).child sd = .nil) :
    Meets (copyChildInto g (some m) (ptr cur) sd) h fun _ h' => ∃ u,
      IR.erase (vals u) = deepCopy (vals (cur.child sd)) ∧ NewTree h₀ h' (setChild sd u (.node (m, k) l r)) := by
  obtain ⟨v,cl,cr,rfl⟩ := exists_node_of_ne_nil hne
  have hcur' := hcur.keep hres.ext
  refine (meets_deref (Q := fun c h' => c = ⟨v.2,ptr cl,ptr cr⟩ ∧ h = h') hcur' rfl ⟨rfl,rfl⟩).bind ?_
  rintro c h' ⟨rfl,rfl⟩
  rw [side_eq]
  cases hchild : (BinaryTree.node v cl cr).child sd with
  | nil =>
    refine Meets.onlyIf (fun hsome => absurd hsome Bool.false_ne_true) fun _ => ⟨.nil,rfl,?_⟩
    rw [← hfree, setChild_same]
    exact hres
  | node w wl wr =>
    have hw := hcur'.child sd
    rw [hchild] at hw
    refine Meets.onlyIf (fun _ => ?_) fun hnone => absurd rfl hnone
    refine (meets_deepCopyAt (g := g) hw (by simp)).bind ?_
    rintro p h₁ ⟨u,hu,rfl⟩
    have hcell : h₁.cell m = some ⟨k,ptr l,ptr r⟩ := (hres.holds.keep hu.new.ext).1
    exact meets_updateCell hcell fun h₂ hw => ⟨u,hu.vals,hres.setChild hu.new hw⟩

def Yields (s s' : Mutator) (p : Ptr) (v : Option IR) : Prop :=
  match v with
  | none => p = none
  | some v => ∃ u, Fresh s s' u ∧ ptr u = p ∧ u ≠ .nil ∧ IR.erase (vals u) = v

theorem Yields.since {s₀ s₁ s : Mutator} {p : Ptr} {v : Option IR} (h : Yields s₁ s p v)
    (hle : s₀.heap.next ≤ s₁.heap.next) : Yields s₀ s p v := by
  cases v with
  | none => exact h
  | some v =>
    obtain ⟨u,hu,hptr,hne,hvals⟩ := h
    exact ⟨u,hu.since hle,hptr,hne,hvals⟩

structure Did (b : ℕ) (lib : Shelves) (s s' : Mutator) (p : Ptr) (out : Option IR × Rand) : Prop where
  step : Stepped b lib s s'
  rand : s'.rand = out.2
  yields : Yields s s' p out.1

theorem strategyReplaceWithConstraint_node (lib : Entries) {n m : IRNode} {cl cr rl rr : IR} {r r' : Rand}
    (hop : n.op.getD .empty ≠ .empty) (hres : getRandomIR lib n.type r = (.node m rl rr, r')) :
    strategyReplaceWithConstraint lib (.node n cl cr) r =
      if sameInterface rl cl && sameInterface rr cr then (some (.node m.copied (deepCopy cl) (deepCopy cr)), r')
      else (none, r') := by
  rw [strategyReplaceWithConstraint, if_neg hop, hres]

theorem meets_strategyReplaceWithConstraintAt {s : Mutator} (h : Ready b lib s)
    {cur : BinaryTree (ℕ × IRNode)} (hcur : Holds s.heap cur) (hne : cur ≠ .nil) :
    Meets (strategyReplaceWithConstraintAt g (ptr cur)) s fun p s' =>
      Did b lib s s' p (strategyReplaceWithConstraint lib.values (vals cur) s.rand) := by
  obtain ⟨v,cl,cr,rfl⟩ := exists_node_of_ne_nil hne
  refine (Meets.assertThat (Q := fun _ s' => s = s') rfl rfl).bind ?_
  rintro - s' rfl
  refine (meets_readNode (Q := fun c s' => c = ⟨v.2,ptr cl,ptr cr⟩ ∧ s = s') hcur rfl ⟨rfl,rfl⟩).bind ?_
  rintro c s' ⟨rfl,rfl⟩
  refine Meets.ite (fun hop => ?_) fun hop => ?_
  · have hvalue : strategyReplaceWithConstraint lib.values (vals (.node v cl cr)) s.rand = (none, s.rand) := by
      rw [vals_node, strategyReplaceWithConstraint, if_pos hop]
    rw [hvalue]
    exact Meets.pure ⟨h.refl,rfl,rfl⟩
  refine (meets_getRandomIRAt (g := g) h v.2.type).bind ?_
  rintro p s₁ ⟨hstep,hrand,u,rfl,hune,⟨hu,-⟩,huvals⟩
  obtain ⟨w,ul,ur,rfl⟩ := exists_node_of_ne_nil hune
  obtain ⟨m,rl,rr,r',hres,hm,hrl,hrr⟩ : ∃ m rl rr r', getRandomIR lib.values v.2.type s.rand = (.node m rl rr, r') ∧
      w.2.erase = m.erase ∧ IR.erase (vals ul) = IR.erase rl ∧ IR.erase (vals ur) = IR.erase rr := by
    cases hres : getRandomIR lib.values v.2.type s.rand with
    | mk e r' =>
      rw [hres] at huvals
      cases e with
      | nil => cases huvals
      | node m rl rr =>
        rw [vals_node, erase_node, erase_node, BinaryTree.node.injEq] at huvals
        exact ⟨m,rl,rr,r',rfl,huvals⟩
  rw [hres] at hrand
  have hcur₁ := hcur.keep hstep.ext
  have hsame : ∀ {t c : BinaryTree (ℕ × IRNode)} {e : IR}, IR.erase (vals t) = IR.erase e →
      sameInterface (vals t) (vals c) = sameInterface e (vals c) := by
    intro t c e he
    rw [sameInterface, sameInterface, ← type?_erase (vals t), he, type?_erase]
  rw [vals_node, strategyReplaceWithConstraint_node lib.values hop hres]
  refine (meets_readNode (Q := fun c s' => c = ⟨w.2,ptr ul,ptr ur⟩ ∧ s₁ = s') hu rfl ⟨rfl,rfl⟩).bind ?_
  rintro c s' ⟨rfl,rfl⟩
  refine (meets_sameInterfaceAt (Q := fun x s' => x = sameInterface rl (vals cl) ∧ s₁ = s') hu.2.1 hcur₁.2.1
    ⟨hsame hrl,rfl⟩).bind ?_
  rintro x s' ⟨rfl,rfl⟩
  refine Meets.ite (fun hl => ?_) fun hl => ?_
  · rw [if_neg (by simp_all)]
    exact Meets.pure ⟨hstep,hrand,rfl⟩
  refine (meets_sameInterfaceAt (Q := fun x s' => x = sameInterface rr (vals cr) ∧ s₁ = s') hu.2.2 hcur₁.2.2
    ⟨hsame hrr,rfl⟩).bind ?_
  rintro x s' ⟨rfl,rfl⟩
  refine Meets.ite (fun hr => ?_) fun hr => ?_
  · rw [if_neg (by simp_all)]
    exact Meets.pure ⟨hstep,hrand,rfl⟩
  rw [if_pos (by simp_all)]
  refine (meets_onHeap (R := fun p s₂ => ∃ m' k h', p = some m' ∧ k.erase = w.2.copied ∧
    NewTree s₁.heap h' (.node (m', k) .nil .nil) ∧ s₂ = { s₁ with heap := h' }) (meets_copyHead hu) ?_).bind ?_
  · rintro p h' ⟨m',k,hp,hk,hnew⟩
    exact ⟨m',k,h',hp,hk,hnew,rfl⟩
  rintro p s₂ ⟨m',k,h',rfl,hk,hnew,rfl⟩
  refine (meets_onHeap (s := { s₁ with heap := h' }) (R := fun _ s₃ => ∃ x h', IR.erase (vals x) = deepCopy (vals cl) ∧
    NewTree s₁.heap h' (.node (m', k) x .nil) ∧ s₃ = { s₁ with heap := h' })
    (meets_copyChildInto .left hcur₁ hne hnew rfl) ?_).bind ?_
  · rintro - h' ⟨x,hx,hnew⟩
    exact ⟨x,h',hx,hnew,rfl⟩
  rintro - s₃ ⟨x,h₃,hx,hnew₃,rfl⟩
  refine (meets_onHeap (s := { s₁ with heap := h₃ }) (R := fun _ s₄ => ∃ y h', IR.erase (vals y) = deepCopy (vals cr) ∧
    NewTree s₁.heap h' (.node (m', k) x y) ∧ s₄ = { s₁ with heap := h' })
    (meets_copyChildInto .right hcur₁ hne hnew₃ rfl) ?_).bind ?_
  · rintro - h' ⟨y,hy,hnew⟩
    exact ⟨y,h',hy,hnew,rfl⟩
  rintro - s₄ ⟨y,h₄,hy,hnew₄,rfl⟩
  have hfresh := (hstep.ready.fresh hnew₄).since hstep.ext.next
  refine Meets.pure ⟨hstep.trans (hstep.ready.stepped hnew₄.ext rfl rfl rfl),hrand,_,hfresh,rfl,by simp,?_⟩
  rw [vals_node, erase_node, hx, hy, hk, ← copied_erase, hm, copied_erase]

theorem meets_notUnknownAt {s : Mutator} {t : BinaryTree (ℕ × IRNode)} (ht : Holds s.heap t)
    {Q : Bool → Mutator → Prop} (hQ : Q (notUnknown (vals t)) s) : Meets (notUnknownAt (ptr t)) s Q := by
  cases t with
  | nil => exact Meets.pure hQ
  | node v l r =>
    refine (meets_typeOf (Q := fun T s' => T = v.2.type ∧ s = s') ht rfl ⟨rfl,rfl⟩).bind ?_
    rintro T s' ⟨rfl,rfl⟩
    refine Meets.pure ?_
    have hvalue : notUnknown (vals (.node v l r)) = decide (v.2.type ≠ kUnknown) := by
      simp [notUnknown, bne]
      rfl
    rwa [hvalue] at hQ

/-- A state that has all cells of `s` and still the static of `s₁`. -/
theorem Stepped.rewrite {s s₁ s₂ : Mutator} (h : Stepped b lib s s₁) (hs : Ready b lib s)
    (hext : Extends s.heap s₂.heap) (hstatic : ∀ e, s₁.emptyIr = some e → s₂.heap.cell e = s₁.heap.cell e)
    (hlist : s₂.irLibrary = s.irLibrary) (hhash : s₂.irLibraryHash = s.irLibraryHash)
    (hempty : s₂.emptyIr = s₁.emptyIr) : Stepped b lib s s₂ := by
  refine ⟨⟨hs.inv.keep (fun T u hu a ha => hext.cell a ((hs.inv.holds T u hu).lt ha)) hlist hhash,
    hs.below,hs.bound.trans hext.next,?_⟩,hext,⟨hlist,hhash⟩,?_⟩
  · rw [hempty]
    exact h.ready.empty.imp id fun ⟨e,n,he,hcell,hn⟩ => ⟨e,n,he,⟨(hstatic e he).trans hcell.1,trivial,trivial⟩,hn⟩
  · rw [hempty]
    exact h.empty

structure Editing (b : ℕ) (lib : Shelves) (s₀ s : Mutator) (res : BinaryTree (ℕ × IRNode)) : Prop where
  step : Stepped b lib s₀ s
  new : NewTree s₀.heap s.heap res
  fresh : Fresh s₀ s res

theorem Editing.step' {s₀ s s' : Mutator} {res : BinaryTree (ℕ × IRNode)} (h : Editing b lib s₀ s res)
    (hs : Stepped b lib s s') : Editing b lib s₀ s' res :=
  ⟨h.step.trans hs,⟨h.new.ext.trans hs.ext,h.new.holds.keep hs.ext,h.new.nodup,h.new.fresh⟩,h.fresh.step hs⟩

theorem meets_setCopy {s₀ s : Mutator} (hs₀ : Ready b lib s₀) {m : ℕ} {k : IRNode}
    {l r u : BinaryTree (ℕ × IRNode)} (hres : Editing b lib s₀ s (.node (m, k) l r)) (hu : Holds s.heap u)
    (hne : u ≠ .nil) (sd : Side) :
    Meets (setCopy g (some m) sd (ptr u)) s fun _ s' => ∃ c, IR.erase (vals c) = deepCopy (vals u) ∧
      Editing b lib s₀ s' (setChild sd c (.node (m, k) l r)) ∧ s'.rand = s.rand ∧
        ∀ x, Shelved b s x → Shelved b s' x := by
  refine (meets_onHeap (R := fun p s₁ => ∃ c h', IsCopy g s.heap h' u c ∧ ptr c = p ∧ s₁ = { s with heap := h' })
    (meets_deepCopyAt hu hne) fun p h' ⟨c,hc,hp⟩ => ⟨c,h',hc,hp,rfl⟩).bind ?_
  rintro p s₁ ⟨c,h₁,hc,rfl,rfl⟩
  have hcell : h₁.cell m = some ⟨k,ptr l,ptr r⟩ := (hres.new.holds.keep hc.new.ext).1
  refine meets_onHeap (s := { s with heap := h₁ }) (meets_updateCell (Q := fun _ h₂ =>
    Writes h₁ h₂ m (Cell.setSide sd (ptr c) ⟨k,ptr l,ptr r⟩)) hcell fun _ hw => hw) ?_
  intro _ h₂ hw
  have hnew := hres.new.setChild hc.new hw
  have hm := hres.fresh.fresh m (by simp)
  have hle := hres.step.ext.next
  have hstatic : ∀ e, s.emptyIr = some e → h₂.cell e = s.heap.cell e := by
    intro e he
    have hne : e ≠ m := fun heq => hm.2 (heq ▸ he)
    rcases hres.step.ready.empty with hnone | ⟨e',n,he',hcell',-⟩
    · rw [hnone] at he
      cases he
    · rw [he] at he'
      cases he'
      rw [hw.other e hne, hc.new.ext.cell e (lt_next hcell'.1)]
  have hstep : Stepped b lib s₀ { s with heap := h₂ } :=
    hres.step.rewrite hs₀ hnew.ext hstatic hres.step.lists.1 hres.step.lists.2 rfl
  refine ⟨c,hc.vals,⟨hstep,hnew,hnew.holds,hnew.nodup,fun a ha => ⟨hnew.fresh a ha,fun heq => ?_⟩⟩,rfl,?_⟩
  · rcases mem_addrs_replaceAt (t := .node (m, k) l r) (p := [sd]) ha with ha | ha
    · exact (hres.fresh.fresh a ha).2 heq
    · have hcs := hres.step.ready.fresh hc.new
      exact (hcs.fresh a ha).2 heq
  · rintro x ⟨hx,hxa⟩
    refine ⟨hx.congr fun a ha => ?_,hxa⟩
    have hne : a ≠ m := by
      rintro rfl
      rcases hxa a ha with hlt | he
      · have hb := hs₀.bound
        omega
      · exact hm.2 he
    rw [hw.other a hne, hc.new.ext.cell a (hx.lt ha)]

theorem Shelved.step {s s' : Mutator} {u : BinaryTree (ℕ × IRNode)} (h : Shelved b s u)
    (hs : Stepped b lib s s') : Shelved b s' u := by
  refine ⟨h.1.keep hs.ext,fun a ha => (h.2 a ha).imp id fun he => ?_⟩
  rcases hs.empty with hsame | ⟨hnone,-⟩
  · rw [hsame, he]
  · rw [he] at hnone
    cases hnone

theorem meets_childType {s : Mutator} {t : BinaryTree (ℕ × IRNode)} (ht : Holds s.heap t) {sd : Side}
    (hne : t.child sd ≠ .nil) {Q : IRType → Mutator → Prop}
    (hQ : Q ((IR.type? (vals (t.child sd))).getD 0) s) : Meets (childType (ptr t) sd) s Q := by
  cases t with
  | nil => exact absurd (child_nil sd) hne
  | node v l r =>
    refine (meets_readNode (Q := fun c s' => c = ⟨v.2,ptr l,ptr r⟩ ∧ s = s') ht rfl ⟨rfl,rfl⟩).bind ?_
    rintro c s' ⟨rfl,rfl⟩
    rw [side_eq]
    have hchild := ht.child sd
    cases hc : (BinaryTree.node v l r).child sd with
    | nil => exact absurd hc hne
    | node w wl wr =>
      rw [hc] at hchild hQ
      exact meets_typeOf hchild rfl hQ

/-- `deep_copy(cur)` starts an edit. -/
theorem meets_startEdit {s : Mutator} (h : Ready b lib s) {cur : BinaryTree (ℕ × IRNode)}
    (hcur : Holds s.heap cur) (hne : cur ≠ .nil) :
    Meets (onHeap (deepCopyAt g (ptr cur))) s fun p s' => ∃ m k l r, p = some m ∧
      IR.erase (vals (.node (m, k) l r)) = deepCopy (vals cur) ∧ Editing b lib s s' (.node (m, k) l r) ∧
        s'.rand = s.rand ∧ s'.emptyIr = s.emptyIr := by
  refine meets_onHeap (meets_deepCopyAt hcur hne) ?_
  rintro p h' ⟨u,hu,rfl⟩
  cases u with
  | nil =>
    have hvals := hu.vals
    exact absurd (vals_eq_nil.mp (map_eq_nil.mp hvals.symm)) hne
  | node v l r =>
    exact ⟨v.1,v.2,l,r,rfl,hu.vals,⟨h.stepped hu.new.ext rfl rfl rfl,hu.new,h.fresh hu.new⟩,rfl,rfl⟩

theorem child_vals (t : BinaryTree (ℕ × IRNode)) (sd : Side) : vals (t.child sd) = (vals t).child sd :=
  (child_map Prod.snd sd t).symm

theorem type?_child_copy {t : BinaryTree (ℕ × IRNode)} {u : IR} (h : IR.erase (vals t) = deepCopy u) (sd : Side) :
    IR.type? (vals (t.child sd)) = IR.type? (u.child sd) := by
  have htype : ∀ x : IR, IR.type? (deepCopy x) = IR.type? x := fun x => by cases x <;> rfl
  rw [← type?_erase, child_vals, IR.erase, ← child_map]
  change IR.type? ((IR.erase (vals t)).child sd) = _
  rw [h, deepCopy, child_map]
  exact htype _

theorem ne_nil_of_notUnknown {t : IR} (h : notUnknown t) : t ≠ .nil := by
  rintro rfl
  cases h

theorem meets_replaceOneChild {s : Mutator} (h : Ready b lib s) {cur : BinaryTree (ℕ × IRNode)}
    (hcur : Holds s.heap cur) (hne : cur ≠ .nil) (sd : Side) :
    Meets (replaceOneChild g (ptr cur) sd) s fun p s' =>
      Did b lib s s' p (replacedChild lib.values (vals cur) sd s.rand) := by
  obtain ⟨v,cl,cr,rfl⟩ := exists_node_of_ne_nil hne
  refine (meets_readNode (Q := fun c s' => c = ⟨v.2,ptr cl,ptr cr⟩ ∧ s = s') hcur rfl ⟨rfl,rfl⟩).bind ?_
  rintro c s' ⟨rfl,rfl⟩
  rw [side_eq]
  refine (meets_notUnknownAt (Q := fun x s' => x = notUnknown ((vals (.node v cl cr)).child sd) ∧ s = s')
    (hcur.child sd) ⟨by rw [child_vals],rfl⟩).bind ?_
  rintro x s' ⟨rfl,rfl⟩
  rw [replacedChild]
  refine Meets.ite (fun hknown => ?_) fun hunknown => ?_
  · rw [if_pos hknown]
    refine (meets_startEdit (g := g) h hcur hne).bind ?_
    rintro p s₁ ⟨m,k,l,r,rfl,hvals,hedit,hrand,-⟩
    have htype := type?_child_copy hvals sd
    have hchild : (BinaryTree.node (m, k) l r).child sd ≠ .nil := by
      intro hnil
      rw [hnil] at htype
      have hcne := ne_nil_of_notUnknown hknown
      cases hc : (vals (.node v cl cr)).child sd with
      | nil => exact hcne hc
      | node w wl wr =>
        rw [hc] at htype
        cases htype
    refine (meets_childType (Q := fun T s' => T = (IR.type? ((vals (.node v cl cr)).child sd)).getD 0 ∧ s₁ = s')
      hedit.new.holds hchild ⟨by rw [htype],rfl⟩).bind ?_
    rintro T s' ⟨rfl,rfl⟩
    refine (meets_getRandomIRAt (g := g) hedit.step.ready _).bind ?_
    rintro p s₂ ⟨hstep,hrand₂,u,rfl,hune,hu,huvals⟩
    rw [hrand] at hrand₂ huvals
    refine (meets_setCopy (g := g) h (hedit.step' hstep) hu.1 hune sd).bind ?_
    rintro - s₃ ⟨c,hc,hedit₃,hrand₃,-⟩
    refine Meets.pure ⟨hedit₃.step,hrand₃.trans hrand₂,_,hedit₃.fresh,?_,?_,?_⟩
    · cases sd <;> rfl
    · cases sd <;> simp [setChild]
    · have hset : vals (setChild sd c (.node (m, k) l r)) = setChild sd (vals c) (vals (.node (m, k) l r)) :=
        setChild_map ..
      rw [hset, IR.erase, setChild_map]
      change setChild sd (IR.erase (vals c)) (IR.erase (vals (.node (m, k) l r))) = _
      rw [hc, hvals, ← deepCopy_erase (vals u), huvals, deepCopy_erase]
  · rw [if_neg hunknown]
    exact Meets.pure ⟨h.refl,rfl,rfl⟩

/-- The children that `strategy_replace` would replace are in the copy too. -/
theorem child_copy_ne_nil {t : BinaryTree (ℕ × IRNode)} {u : IR} (h : IR.erase (vals t) = deepCopy u) {sd : Side}
    (hknown : notUnknown (u.child sd)) : t.child sd ≠ .nil := by
  intro hnil
  have htype := type?_child_copy h sd
  rw [hnil] at htype
  cases hc : u.child sd with
  | nil => exact ne_nil_of_notUnknown hknown hc
  | node w wl wr =>
    rw [hc] at htype
    cases htype

theorem erase_vals_setChild {t c : BinaryTree (ℕ × IRNode)} {u e : IR} (ht : IR.erase (vals t) = u)
    (hc : IR.erase (vals c) = e) (sd : Side) : IR.erase (vals (setChild sd c t)) = setChild sd e u := by
  rw [vals, setChild_map, IR.erase, setChild_map, ← ht, ← hc]
  rfl

theorem meets_replaceBothChildren {s : Mutator} (h : Ready b lib s) {cur : BinaryTree (ℕ × IRNode)}
    (hcur : Holds s.heap cur) (hne : cur ≠ .nil) :
    Meets (replaceBothChildren g (ptr cur)) s fun p s' =>
      Did b lib s s' p (replacedChildren lib.values (vals cur) s.rand) := by
  obtain ⟨v,cl,cr,rfl⟩ := exists_node_of_ne_nil hne
  refine (meets_readNode (Q := fun c s' => c = ⟨v.2,ptr cl,ptr cr⟩ ∧ s = s') hcur rfl ⟨rfl,rfl⟩).bind ?_
  rintro c s' ⟨rfl,rfl⟩
  refine (meets_notUnknownAt (Q := fun x s' => x = notUnknown ((vals (.node v cl cr)).child .left) ∧ s = s')
    hcur.2.1 ⟨rfl,rfl⟩).bind ?_
  rintro x s' ⟨rfl,rfl⟩
  rw [replacedChildren]
  refine Meets.ite (fun hl => ?_) fun hl => ?_
  · rw [if_neg (by simp_all)]
    exact Meets.pure ⟨h.refl,rfl,rfl⟩
  refine (meets_notUnknownAt (Q := fun x s' => x = notUnknown ((vals (.node v cl cr)).child .right) ∧ s = s')
    hcur.2.2 ⟨rfl,rfl⟩).bind ?_
  rintro x s' ⟨rfl,rfl⟩
  refine Meets.ite (fun hr => ?_) fun hr => ?_
  · rw [if_neg (by simp_all)]
    exact Meets.pure ⟨h.refl,rfl,rfl⟩
  simp only [Bool.not_eq_true', Bool.not_eq_false] at hl hr
  rw [if_pos (by rw [hl, hr]; rfl)]
  refine (meets_startEdit (g := g) h hcur hne).bind ?_
  rintro p s₁ ⟨m,k,l,r,rfl,hvals,hedit₁,hrand₁,-⟩
  refine (meets_childType (Q := fun T s' => T = (IR.type? ((vals (.node v cl cr)).child .left)).getD 0 ∧ s₁ = s')
    hedit₁.new.holds (child_copy_ne_nil hvals hl) ⟨by rw [type?_child_copy hvals],rfl⟩).bind ?_
  rintro T s' ⟨rfl,rfl⟩
  refine (meets_getRandomIRAt (g := g) hedit₁.step.ready _).bind ?_
  rintro p s₂ ⟨hstep₂,hrand₂,ul,rfl,hulne,hul,hulvals⟩
  rw [hrand₁] at hrand₂ hulvals
  have hedit₂ := hedit₁.step' hstep₂
  refine (meets_childType (Q := fun T s' => T = (IR.type? ((vals (.node v cl cr)).child .right)).getD 0 ∧ s₂ = s')
    hedit₂.new.holds (child_copy_ne_nil hvals hr) ⟨by rw [type?_child_copy hvals],rfl⟩).bind ?_
  rintro T s' ⟨rfl,rfl⟩
  refine (meets_getRandomIRAt (g := g) hedit₂.step.ready _).bind ?_
  rintro p s₃ ⟨hstep₃,hrand₃,ur,rfl,hurne,hur,hurvals⟩
  rw [hrand₂] at hrand₃ hurvals
  refine (meets_setCopy (g := g) h (hedit₂.step' hstep₃) hur.1 hurne .right).bind ?_
  rintro - s₄ ⟨cr',hcr',hedit₄,hrand₄,hshelved⟩
  have hul₄ := hshelved ul (hul.step hstep₃)
  refine (meets_setCopy (g := g) h hedit₄ hul₄.1 hulne .left).bind ?_
  rintro - s₅ ⟨cl',hcl',hedit₅,hrand₅,-⟩
  refine Meets.pure ⟨hedit₅.step,(hrand₅.trans hrand₄).trans hrand₃,_,hedit₅.fresh,rfl,by simp [setChild],?_⟩
  rw [← deepCopy_erase, hulvals, deepCopy_erase] at hcl'
  rw [← deepCopy_erase, hurvals, deepCopy_erase] at hcr'
  exact erase_vals_setChild (erase_vals_setChild hvals hcr' .right) hcl' .left

theorem meets_strategyReplaceAt {s : Mutator} (h : Ready b lib s) {cur : BinaryTree (ℕ × IRNode)}
    (hcur : Holds s.heap cur) (hne : cur ≠ .nil) :
    Meets (strategyReplaceAt g (ptr cur)) s fun p s' => Did b lib s s' p (strategyReplace lib.values (vals cur) s.rand) := by
  have hsome : (ptr cur).isSome := by
    rw [Option.isSome_iff_ne_none, Ne, ptr_eq_none]
    exact hne
  refine (Meets.assertThat (Q := fun _ s' => s = s') hsome rfl).bind ?_
  rintro - s' rfl
  refine (meets_getRandInt (Q := fun i s' => i = s.rand.head % 3 ∧ s' = { s with rand := s.rand.tail })
    (by decide) ⟨rfl,rfl⟩).bind ?_
  rintro i s' ⟨rfl,rfl⟩
  have hready : Stepped b lib s { s with rand := s.rand.tail } := h.stepped (Extends.refl _) rfl rfl rfl
  have hdid : ∀ {p s' out}, Did b lib { s with rand := s.rand.tail } s' p out → Did b lib s s' p out := by
    rintro p s' out ⟨hstep,hrand,hyields⟩
    exact ⟨hready.trans hstep,hrand,hyields.since le_rfl⟩
  rw [strategyReplace]
  refine Meets.ite (fun h0 => ?_) fun h0 => Meets.ite (fun h1 => ?_) fun h1 => ?_
  · simp only [if_pos h0]
    exact (meets_replaceOneChild hready.ready hcur hne .left).mono fun p s' => hdid
  · simp only [if_neg h0, if_pos h1]
    exact (meets_replaceOneChild hready.ready hcur hne .right).mono fun p s' => hdid
  · simp only [if_neg h0, if_neg h1]
    exact (meets_replaceBothChildren hready.ready hcur hne).mono fun p s' => hdid

structure FreshTrees (s₀ s : Mutator) (us : List (BinaryTree (ℕ × IRNode))) : Prop where
  fresh : ∀ u ∈ us, Fresh s₀ s u
  nodup : (us.flatMap addrs).Nodup

structure DidAll (b : ℕ) (lib : Shelves) (s s' : Mutator) (ps : List Ptr) (us : List (BinaryTree (ℕ × IRNode)))
    (out : List IR × Rand) : Prop where
  step : Stepped b lib s s'
  rand : s'.rand = out.2
  ptrs : ps = us.map ptr
  vals : us.map (fun u => IR.erase (vals u)) = out.1
  fresh : FreshTrees s s' us

theorem Yields.toList {s s' : Mutator} {p : Ptr} {v : Option IR} (h : Yields s s' p v) :
    ∃ us : List (BinaryTree (ℕ × IRNode)), (if p.isSome then [p] else []) = us.map ptr ∧
      us.map (fun u => IR.erase (vals u)) = v.toList ∧ FreshTrees s s' us := by
  cases v with
  | none =>
    cases h
    exact ⟨[],rfl,rfl,by simp,List.nodup_nil⟩
  | some v =>
    obtain ⟨u,hu,rfl,hne,hvals⟩ := h
    have hsome : (ptr u).isSome := by
      rw [Option.isSome_iff_ne_none, Ne, ptr_eq_none]
      exact hne
    rw [if_pos hsome]
    exact ⟨[u],rfl,by simp [hvals],by simpa using hu,by simpa using hu.nodup⟩

theorem FreshTrees.append {s₀ s₁ s₂ : Mutator} {us us' : List (BinaryTree (ℕ × IRNode))}
    (h : FreshTrees s₀ s₁ us) (h' : FreshTrees s₁ s₂ us') (h₀₁ : s₀.heap.next ≤ s₁.heap.next)
    (hstep : Stepped b lib s₁ s₂) : FreshTrees s₀ s₂ (us ++ us') := by
  refine ⟨fun u hu => ?_,?_⟩
  · rcases List.mem_append.mp hu with hu | hu
    · exact (h.fresh u hu).step hstep
    · exact (h'.fresh u hu).since h₀₁
  · rw [List.flatMap_append, List.nodup_append]
    refine ⟨h.nodup,h'.nodup,fun a ha c hc heq => ?_⟩
    obtain ⟨u,hu,hau⟩ := List.mem_flatMap.mp ha
    obtain ⟨u',hu',hcu'⟩ := List.mem_flatMap.mp hc
    have hlt := (h.fresh u hu).holds.lt hau
    have hge := ((h'.fresh u' hu').fresh c hcu').1
    omega

theorem meets_constrainedVariantsAt {s : Mutator} (h : Ready b lib s) {cur : BinaryTree (ℕ × IRNode)}
    (hcur : Holds s.heap cur) (hne : cur ≠ .nil) (k : ℕ) :
    Meets (constrainedVariantsAt g (ptr cur) k) s fun ps s' =>
      ∃ us, DidAll b lib s s' ps us (constrainedVariants lib.values (vals cur) k s.rand) := by
  induction k generalizing s with
  | zero => exact Meets.pure ⟨[],h.refl,rfl,rfl,rfl,by simp,List.nodup_nil⟩
  | succ k ih =>
    refine (meets_strategyReplaceWithConstraintAt (g := g) h hcur hne).bind ?_
    intro p s₁ hdid
    obtain ⟨us,hptr,hvals,hfresh⟩ := hdid.yields.toList
    refine (ih hdid.step.ready (hcur.keep hdid.step.ext)).bind ?_
    rintro ps s₂ ⟨us',hall⟩
    refine Meets.pure ⟨us ++ us',hdid.step.trans hall.step,?_,?_,?_,
      hfresh.append hall.fresh hdid.step.ext.next hall.step⟩
    · rw [hall.rand, hdid.rand]
      rfl
    · rw [List.map_append, ← hptr, ← hall.ptrs]
      split <;> rfl
    · rw [List.map_append, hvals, hall.vals, hdid.rand]
      rfl

theorem meets_mutateIRAt {s : Mutator} (h : Ready b lib s) {cur : BinaryTree (ℕ × IRNode)}
    (hcur : Holds s.heap cur) (hne : cur ≠ .nil) :
    Meets (mutateIRAt g (ptr cur)) s fun ps s' =>
      ∃ us, DidAll b lib s s' ps us (mutateIR lib.values (vals cur) s.rand) := by
  refine (meets_constrainedVariantsAt (g := g) h hcur hne kConstraintReplaceTimes).bind ?_
  rintro ps s₁ ⟨us,hall⟩
  refine (meets_strategyReplaceAt (g := g) hall.step.ready (hcur.keep hall.step.ext) hne).bind ?_
  intro p s₂ hdid
  obtain ⟨us',hptr,hvals,hfresh⟩ := hdid.yields.toList
  refine Meets.pure ⟨us ++ us',hall.step.trans hdid.step,?_,?_,?_,
    hall.fresh.append hfresh hall.step.ext.next hdid.step⟩
  · rw [hdid.rand, hall.rand]
    rfl
  · rw [List.map_append, ← hptr, ← hall.ptrs]
    split
    · rfl
    · rw [List.append_nil]
  · rw [List.map_append, hall.vals, hvals, hall.rand]
    rfl

end

end PolyGlot
