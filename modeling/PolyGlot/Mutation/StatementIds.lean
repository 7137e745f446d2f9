import PolyGlot.Antlr.Numbering
import PolyGlot.Mutation.Graft

set_option autoImplicit false

/-! # The statement ids of mutants

`IR(ir, left, right)` copies neither of the two ids, so every tree that
`MutateIRs` returns has the ids that its nodes find in memory.
-/
namespace PolyGlot

open BinaryTree TreeHeap Prog

/-- Two nodes with a type of the grammar lie side by side. -/
def Rivals (m : IR) : Prop :=
  ∃ p q, Before p q ∧ notUnknown (m.subtreeAt p) ∧ notUnknown (m.subtreeAt q)

theorem notUnknown_iff {t : IR} : notUnknown t ↔ ∃ n, t.root? = some n ∧ n.type ≠ kUnknown := by
  cases t with
  | nil => simp [notUnknown, root?, IR.type?]
  | node n l r => simp [notUnknown, root?, IR.type?]

theorem rivals_of_known {m m' : IR} (h : ∀ p, notUnknown (m.subtreeAt p) → notUnknown (m'.subtreeAt p))
    (hm : Rivals m) : Rivals m' := by
  obtain ⟨p,q,hpq,hp,hq⟩ := hm
  exact ⟨p,q,hpq,h p hp,h q hq⟩

theorem notUnknown_map {f : IRNode → IRNode} (hf : ∀ n, (f n).type = n.type) (t : IR) :
    notUnknown (t.map f) = notUnknown t := by
  cases t with
  | nil => rfl
  | node n l r => simp only [notUnknown, map, IR.type?, hf]

theorem rivals_map {f : IRNode → IRNode} (hf : ∀ n, (f n).type = n.type) (t : IR) : Rivals (t.map f) ↔ Rivals t := by
  simp only [Rivals, subtreeAt_map, notUnknown_map hf]

theorem rivals_deepCopy (t : IR) : Rivals (deepCopy t) ↔ Rivals t :=
  rivals_map (f := IRNode.copied) (fun _ => rfl) t

theorem rivals_erase (t : IR) : Rivals t.erase ↔ Rivals t := rivals_map (f := IRNode.erase) (fun _ => rfl) t

/-- Without rivals there is nothing to compare. -/
theorem idsInOrder_of_calm {m : IR} (h : ¬ Rivals m) : IdsInOrder m := by
  intro p q a b hpq ha hb hka hkb
  exact absurd ⟨p,q,hpq,notUnknown_iff.mpr ⟨a,ha,hka⟩,notUnknown_iff.mpr ⟨b,hb,hkb⟩⟩ h

/-- Where all nodes have one id, rivals are out of order. -/
theorem not_rivals_of_constant {m : IR} {k : StatementID} (hm : IdsInOrder m)
    (hk : ∀ n ∈ m.values, n.statementId = k) : ¬ Rivals m := by
  rintro ⟨p,q,hpq,hp,hq⟩
  obtain ⟨a,ha,hka⟩ := notUnknown_iff.mp hp
  obtain ⟨b,hb,hkb⟩ := notUnknown_iff.mp hq
  have hlt := hm p q a b hpq ha hb hka hkb
  rw [hk a (mem_values.mpr ⟨p,ha⟩), hk b (mem_values.mpr ⟨q,hb⟩)] at hlt
  exact lt_irrefl k hlt

structure Lone (t : IR) (q : Path) : Prop where
  outside : ∀ x y, Before x y → ¬ q <+: x → ¬ q <+: y → notUnknown (t.subtreeAt x) →
    notUnknown (t.subtreeAt y) → False
  beside : ∀ x, notUnknown (t.subtreeAt x) → ¬ Before x q ∧ ¬ Before q x

theorem notUnknown_replaceAt {t u : IR} {q x : Path} (h : notUnknown ((t.replaceAt q u).subtreeAt x))
    (hx : ¬ q <+: x) : notUnknown (t.subtreeAt x) := by
  rw [notUnknown_iff, root?_subtreeAt_replaceAt hx] at h
  exact notUnknown_iff.mpr h

theorem rivals_replaceAt {t u : IR} {q : Path} (hq : t.subtreeAt q ≠ .nil) (hlone : Lone t q)
    (h : Rivals (t.replaceAt q u)) : Rivals u := by
  obtain ⟨x,y,hxy,hx,hy⟩ := h
  by_cases hqx : q <+: x <;> by_cases hqy : q <+: y
  · obtain ⟨x',rfl⟩ := hqx
    obtain ⟨y',rfl⟩ := hqy
    rw [subtreeAt_replaceAt_append hq] at hx hy
    exact ⟨x',y',hxy.of_append,hx,hy⟩
  · exact absurd (hxy.of_prefix_left hqx hqy) (hlone.beside y (notUnknown_replaceAt hy hqy)).2
  · exact absurd (hxy.of_prefix_right hqx hqy) (hlone.beside x (notUnknown_replaceAt hx hqx)).1
  · exact absurd (notUnknown_replaceAt hy hqy) fun hy =>
      hlone.outside x y hxy hqx hqy (notUnknown_replaceAt hx hqx) hy

def CanSwap (lib : Entries) (cur : IR) : Prop :=
  ∃ n cl cr m rl rr, cur = .node n cl cr ∧ n.op.getD .empty ≠ .empty ∧ Offered lib n.type (.node m rl rr) ∧
    sameInterface rl cl ∧ sameInterface rr cr

/-- Where `root` may be mutated, no choice from the library makes rivals. -/
def Calm (lib : Entries) (root : IR) : Prop :=
  ∀ p, p ≠ [] → root.subtreeAt p ≠ .nil → shouldMutate (root.subtreeAt p) →
    (CanSwap lib (root.subtreeAt p) → ¬ Rivals root) ∧
    ∀ sd, notUnknown ((root.subtreeAt p).child sd) → Lone root (p ++ [sd]) ∧
      ∀ e, Offered lib ((IR.type? ((root.subtreeAt p).child sd)).getD 0) e → ¬ Rivals e

theorem deepCopy_setChild (sd : Side) (u t : IR) :
    deepCopy (setChild sd u t) = setChild sd (deepCopy u) (deepCopy t) := setChild_map ..

/-- A swapped operator leaves the types as they were. -/
theorem rivals_swap {root : IR} {p : Path} {n m : IRNode} {cl cr : IR}
    (hp : root.subtreeAt p = .node n cl cr) (hn : n.type ≠ kUnknown)
    (h : Rivals (root.replaceAt p (.node m.copied (deepCopy cl) (deepCopy cr)))) : Rivals root := by
  refine rivals_of_known (fun q hq => ?_) h
  by_cases hpq : p <+: q
  · obtain ⟨q,rfl⟩ := hpq
    rw [subtreeAt_replaceAt_append (by simp [hp])] at hq
    rw [subtreeAt_append, hp]
    rcases q with _ | ⟨_ | _,q⟩
    · exact notUnknown_iff.mpr ⟨n,rfl,hn⟩
    · rw [subtreeAt_cons, child_left, deepCopy, subtreeAt_map, notUnknown_map (f := IRNode.copied) fun _ => rfl] at hq
      exact hq
    · rw [subtreeAt_cons, child_right, deepCopy, subtreeAt_map, notUnknown_map (f := IRNode.copied) fun _ => rfl] at hq
      exact hq
  · exact notUnknown_replaceAt hq hpq

theorem Calm.variant {lib : Entries} {root v : IR} (h : Calm lib root) {p : Path} (hpne : p ≠ [])
    (hpos : root.subtreeAt p ≠ .nil) (hshould : shouldMutate (root.subtreeAt p))
    (hv : Variant lib (root.subtreeAt p) v) : ¬ Rivals (root.replaceAt p v) := by
  obtain ⟨hswap,hchild⟩ := h p hpne hpos hshould
  generalize hcur : root.subtreeAt p = cur at hv hswap hchild hshould
  cases hv with
  | @swap n m cl cr rl rr hop hres hl hr =>
    have hn : n.type ≠ kUnknown := by
      intro htype
      simp [shouldMutate, IR.type?, htype] at hshould
    exact fun hrivals => hswap ⟨n,cl,cr,m,rl,rr,rfl,hop,hres,hl,hr⟩ (rivals_swap hcur hn hrivals)
  | @child _ e sd hknown he =>
    obtain ⟨hlone,hentries⟩ := hchild sd hknown
    intro hrivals
    have hq : root.subtreeAt (p ++ [sd]) ≠ .nil := by
      rw [subtreeAt_append, hcur]
      exact ne_nil_of_notUnknown hknown
    refine hentries e he (rivals_replaceAt hq hlone ?_)
    rw [← rivals_deepCopy, deepCopy_replaceAt, deepCopy_setChild, deepCopy_deepCopy, deepCopy_deepCopy,
      ← deepCopy_setChild, ← deepCopy_replaceAt, rivals_deepCopy] at hrivals
    rw [replaceAt_append, hcur]
    exact hrivals
  | both hl hr he he' =>
    have hlone := (hchild .left hl).1
    have hright : notUnknown (root.subtreeAt (p ++ [.right])) := by
      rw [subtreeAt_append, hcur]
      exact hr
    exact absurd ⟨p,[],[],rfl,rfl⟩ (hlone.beside _ hright).2

theorem Calm.mutants {lib : Entries} {root : IR} (h : Calm lib root) {r : Rand} {m : IR}
    (hm : m ∈ (mutateIRs lib root r).1) : ¬ Rivals m := by
  obtain ⟨p,hpne,hpos,hshould,r',v,hv,rfl⟩ := mem_mutateIRs hm
  rw [rivals_deepCopy]
  exact h.variant hpne hpos hshould (variant_mutateIR hv)

def AllMutants (g : Garbage) (s : Mutator) (root : Ptr) (P : IR → Prop) : Prop :=
  ∃ ps s', mutateRoot g root s = .ok (ps, s') ∧ ∀ q ∈ ps, ∃ m, Leads s' q m ∧ P m

theorem leads_unique {s : Mutator} {p : Ptr} {t t' : IR} (h : Leads s p t) (h' : Leads s p t') : t = t' := by
  obtain ⟨u,hu,hholds,rfl⟩ := h
  obtain ⟨u',hu',hholds',rfl⟩ := h'
  rw [hholds.unique hholds' (hu.trans hu'.symm)]

theorem LibraryInv.leads {s : Mutator} {lib : Shelves} (h : LibraryInv s lib) (T : IRType) :
    List.Forall₂ (Leads s) (s.irLibrary T) (lib.values T) := by
  rw [h.entries, Shelves.values, List.forall₂_map_left_iff, List.forall₂_map_right_iff, List.forall₂_same]
  exact fun t ht => ⟨t,rfl,h.holds T t ht,rfl⟩

/-- The trees of the library are determined by its lists. -/
theorem LibraryInv.values_eq {s : Mutator} {lib : Shelves} (h : LibraryInv s lib) {entries : Entries}
    (hentries : ∀ T, List.Forall₂ (Leads s) (s.irLibrary T) (entries T)) : lib.values = entries := by
  funext T
  have hlib := h.leads T
  have hunique : Relator.RightUnique (Leads s) := fun _ _ _ => leads_unique
  exact List.right_unique_forall₂' hunique hlib (hentries T)

/-- What the mutants are does not depend on memory but for the ids. -/
theorem allMutants_iff {s : Mutator} {b : ℕ} {lib : Shelves} (h : Ready b lib s)
    {root : BinaryTree (ℕ × IRNode)} (hroot : Holds s.heap root) (hnodup : (addrs root).Nodup) (hne : root ≠ .nil)
    {g : Garbage} {P : IR → Prop} (hP : ∀ t t' : IR, t.erase = t'.erase → (P t ↔ P t')) :
    AllMutants g s (ptr root) P ↔ ∀ m ∈ (mutateIRs lib.values (vals root) s.rand).1, P m := by
  obtain ⟨ps,s',hrun,ms,hms⟩ := meets_mutateRoot (g := g) h hroot hnodup hne
  have hmem : ∀ m, P (vals m) ↔ P (IR.erase (vals m)) := fun m => hP _ _ (erase_erase _).symm
  rw [← hms.vals]
  simp only [List.mem_map, forall_exists_index, and_imp, forall_apply_eq_imp_iff₂, ← hmem]
  constructor
  · rintro ⟨ps',s'',hrun',hall⟩ m hm
    rw [hrun] at hrun'
    cases hrun'
    obtain ⟨t,ht,hPt⟩ := hall (ptr m) (by rw [hms.ptrs]; exact List.mem_map_of_mem hm)
    rwa [leads_unique ht ⟨m,rfl,hms.holds m hm,rfl⟩] at hPt
  · intro hall
    refine ⟨ps,s',hrun,fun q hq => ?_⟩
    rw [hms.ptrs] at hq
    obtain ⟨m,hm,rfl⟩ := List.mem_map.mp hq
    exact ⟨vals m,⟨m,rfl,hms.holds m hm,rfl⟩,hall m hm⟩

theorem rivals_congr {t t' : IR} (h : t.erase = t'.erase) : ¬ Rivals t ↔ ¬ Rivals t' := by
  rw [← rivals_erase t, h, rivals_erase t']

/-- With the same ids everywhere, mutants in order have no rivals. -/
theorem allMutants_constant {s : Mutator} {b : ℕ} {lib : Shelves} (h : Ready b lib s)
    {root : BinaryTree (ℕ × IRNode)} (hroot : Holds s.heap root) (hnodup : (addrs root).Nodup) (hne : root ≠ .nil)
    (hall : AllMutants zeroed s (ptr root) IdsInOrder) : AllMutants zeroed s (ptr root) (¬ Rivals ·) := by
  obtain ⟨ps,s',hrun,ms,hms⟩ := meets_mutateRoot (g := zeroed) h hroot hnodup hne
  obtain ⟨ps',s'',hrun',hall⟩ := hall
  rw [hrun] at hrun'
  cases hrun'
  refine ⟨ps,s',hrun,fun q hq => ?_⟩
  obtain ⟨t,ht,hids⟩ := hall q hq
  refine ⟨t,ht,not_rivals_of_constant (k := 0) hids fun n hn => ?_⟩
  rw [hms.ptrs] at hq
  obtain ⟨m,hm,rfl⟩ := List.mem_map.mp hq
  rw [leads_unique ht ⟨m,rfl,hms.holds m hm,rfl⟩, vals, values_map] at hn
  obtain ⟨x,hx,rfl⟩ := List.mem_map.mp hn
  exact congrArg Prod.snd (hms.ids m hm x hx)

/-- After every sequence of additions: if no choice makes rivals, the ids of all
mutants are in order; and the ids are in order whatever memory holds exactly when
no returned tree has rivals. -/
theorem mutants_idsInOrder {g₀ : Garbage} {s : Mutator} (h : LibraryRun g₀ (fun _ => True) s) {entries : Entries}
    (hentries : ∀ T, List.Forall₂ (Leads s) (s.irLibrary T) (entries T)) {root : BinaryTree (ℕ × IRNode)}
    (hroot : Holds s.heap root) (hnodup : (addrs root).Nodup) (hne : root ≠ .nil) :
    (Calm entries (vals root) → ∀ g r, AllMutants g { s with rand := r } (ptr root) IdsInOrder) ∧
    ((∀ g r, AllMutants g { s with rand := r } (ptr root) IdsInOrder) ↔
      ∀ g r, AllMutants g { s with rand := r } (ptr root) (¬ Rivals ·)) := by
  obtain ⟨lib,hinv,-,hempty⟩ := h.inv
  have hready : ∀ r, Ready s.heap.next lib { s with rand := r } := 
    (hinv.ready hempty).withRand
  have hcalm : (∀ g r, AllMutants g { s with rand := r } (ptr root) (¬ Rivals ·)) →
      ∀ g r, AllMutants g { s with rand := r } (ptr root) IdsInOrder := by
    intro hall g r
    obtain ⟨ps,s',hrun,hps⟩ := hall g r
    refine ⟨ps,s',hrun,fun q hq => ?_⟩
    obtain ⟨m,hm,hnot⟩ := hps q hq
    exact ⟨m,hm,idsInOrder_of_calm hnot⟩
  refine ⟨fun hc => hcalm fun g r => ?_,fun hall g r => ?_,hcalm⟩
  · rw [allMutants_iff (hready r) hroot hnodup hne fun _ _ => rivals_congr]
    intro m hm
    rw [hinv.values_eq hentries] at hm
    exact hc.mutants hm
  · have hzero := allMutants_constant (hready r) hroot hnodup hne (hall zeroed r)
    rw [allMutants_iff (hready r) hroot hnodup hne fun _ _ => rivals_congr] at hzero ⊢
    exact hzero

/-- A tree without right children has no rivals. -/
theorem not_rivals_of_left {t : IR} (h : ∀ c, (t.subtreeAt c).child .right = .nil) : ¬ Rivals t := by
  rintro ⟨p,q,⟨c,p',q',rfl,rfl⟩,-,hq⟩
  rw [subtreeAt_append, subtreeAt_cons, h, subtreeAt_nil] at hq
  cases hq

theorem parenTree_right (c : Path) : ((vals parenTree).subtreeAt c).child .right = .nil := by
  rcases c with _ | ⟨_ | _,_ | ⟨_ | _,_ | ⟨_ | _,c⟩⟩⟩ <;> simp [parenTree]

theorem parenTree_calm : Calm (fun _ => []) (vals parenTree) := by
  have hempty : ∀ {T e}, Offered (fun _ => []) T e → ¬ Rivals e := by
    rintro T e (h | ⟨-,rfl⟩)
    · cases h
    · refine not_rivals_of_left fun c => ?_
      rcases c with _ | ⟨_ | _,c⟩ <;> simp [emptyIR, IR.ofData]
  intro p hp hpos hshould
  refine ⟨fun _ => not_rivals_of_left parenTree_right,fun sd hknown => ⟨⟨fun x y hxy _ _ hx hy => ?_,fun x hx => ?_⟩,
    fun e he => hempty he⟩⟩
  · exact not_rivals_of_left parenTree_right ⟨x,y,hxy,hx,hy⟩
  · rw [← subtreeAt_root (child _ _), ← subtreeAt_cons, ← subtreeAt_append] at hknown
    exact ⟨fun h => not_rivals_of_left parenTree_right ⟨x,_,h,hx,hknown⟩,
      fun h => not_rivals_of_left parenTree_right ⟨_,x,h,hknown,hx⟩⟩

theorem parenTree_idsInOrder :
    AllMutants zeroed (Mutator.start parenHeap (Stream'.const 0)) (some 2) IdsInOrder := by
  have hrun : LibraryRun zeroed (fun _ => True) (Mutator.start parenHeap (Stream'.const 0)) := Mutator.start_run ..
  have hheap : Holds (Mutator.start parenHeap (Stream'.const 0)).heap parenTree := parenHeap_holds
  have hall := mutants_idsInOrder hrun (fun _ => .nil) hheap (by decide) (by simp [parenTree])
  exact hall.1 parenTree_calm zeroed (Stream'.const 0)

def pairProgram : ParseTree :=
  .rule { ruleIndex := 0 } [.rule { ruleIndex := 1 }
    [.rule { ruleIndex := 2 } [.terminal ['a']], .rule { ruleIndex := 3 } [.terminal ['b']]]]

theorem pairProgram_outOfOrder : ¬ ∀ (g : Garbage) (s s' : Mutator) (t : ParseTree) (root : ℕ),
    LibraryRun g (fun _ => True) s → translateToIR g t s = .ok (some root, s') →
      AllMutants g s' (some root) IdsInOrder := by
  intro hclaim
  have hstart : LibraryRun zeroed (fun _ => True) (Mutator.start Heap.empty (Stream'.const 0)) := Mutator.start_run ..
  obtain ⟨ir,id',ht,hknown⟩ : ∃ ir id', translateNode zeroed.scopeId pairProgram 0 = .ok (some ir, id') ∧
      ∃ m ∈ (mutateIRs (fun _ => []) ir (Stream'.const 0)).1,
        notUnknown (m.subtreeAt [.left, .left]) ∧ notUnknown (m.subtreeAt [.left, .right]) :=
    ⟨_,_,rfl,by decide +kernel⟩
  obtain ⟨m,hm,hl,hr⟩ := hknown
  obtain ⟨lib,hinv,-,hempty⟩ := hstart.inv
  have hlib : lib.values = fun _ => [] := hinv.values_eq fun _ => .nil
  obtain ⟨_,s',hrun,u,hnew,rfl,rfl,hlist,hhash,hempty',hrand⟩ := meets_translateToIR (g := zeroed)
    (s := Mutator.start Heap.empty (Stream'.const 0)) ht
  have hready := ((hinv.ready hempty).stepped hnew.ext hlist hhash hempty').ready
  have hune : u ≠ .nil := fun hnil => translateNode_ne_nil ht (vals_eq_nil.mpr hnil)
  obtain ⟨root,hroot⟩ : ∃ root, ptr u = some root := by
    rw [← Option.ne_none_iff_exists', Ne, ptr_eq_none]
    exact hune
  have hall := hclaim zeroed _ s' pairProgram root hstart (hroot ▸ hrun)
  rw [← hroot] at hall
  have hcalm := allMutants_constant hready hnew.holds hnew.nodup hune hall
  rw [allMutants_iff hready hnew.holds hnew.nodup hune fun _ _ => rivals_congr, hlib, hrand] at hcalm
  exact hcalm m hm ⟨[.left, .left],[.left, .right],⟨[.left],[],[],rfl,rfl⟩,hl,hr⟩

end PolyGlot
