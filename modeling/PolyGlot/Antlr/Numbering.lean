import PolyGlot.Antlr.Fold
import PolyGlot.Support.TreePath

set_option autoImplicit false

/-! # The ids of a translated program

A node that a fold step invents is numbered after the siblings that follow what
it holds, so ids are in source order only among the nodes with a type of the
grammar. The stack of a fold is `Numbered` as a whole: its nodes of such types
have rising ids in post-order, across all of its entries.
-/
namespace PolyGlot

open BinaryTree

/-- Of two nodes with a type of the grammar, the one that lies before the other
has the smaller id. -/
def IdsInOrder (m : IR) : Prop :=
  ∀ p q a b, Before p q → (m.subtreeAt p).root? = some a → (m.subtreeAt q).root? = some b →
    a.type ≠ kUnknown → b.type ≠ kUnknown → a.statementId < b.statementId

namespace IR

def ids (t : IR) : List StatementID := t.values.map IRNode.statementId

def marks : IR → List StatementID
  | .nil => []
  | .node n l r => marks l ++ marks r ++ if n.type = kUnknown then [] else [n.statementId]

def Falling : IR → Prop
  | .nil => True
  | .node n l r => (∀ i ∈ ids l ++ ids r, i < n.statementId) ∧ Falling l ∧ Falling r

@[simp] theorem ids_nil : ids .nil = [] := rfl
@[simp] theorem ids_node (n : IRNode) (l r : IR) : ids (.node n l r) = n.statementId :: (ids l ++ ids r) := by
  simp [ids, values]

theorem mem_ids_of_mem_marks {t : IR} {i : ℕ} (h : i ∈ t.marks) : i ∈ t.ids := by
  induction t with
  | nil => simp [marks] at h
  | node n l r ihl ihr =>
    rw [marks, List.mem_append, List.mem_append] at h
    rw [ids_node, List.mem_cons, List.mem_append]
    rcases h with (hl | hr) | hn
    · exact .inr (.inl (ihl hl))
    · exact .inr (.inr (ihr hr))
    · by_cases hk : n.type = kUnknown
      · simp [hk] at hn
      · exact .inl (by simpa [hk] using hn)

theorem mem_ids {t : IR} {p : Path} {a : IRNode} (h : (t.subtreeAt p).root? = some a) : a.statementId ∈ t.ids :=
  List.mem_map_of_mem (mem_values.mpr ⟨p,h⟩)

theorem mem_marks {t : IR} {p : Path} {a : IRNode} (h : (t.subtreeAt p).root? = some a) (ha : a.type ≠ kUnknown) :
    a.statementId ∈ t.marks := by
  induction p generalizing t with
  | nil =>
    cases t with
    | nil => cases h
    | node n l r =>
      cases h
      simp [marks, ha]
  | cons s p ih =>
    cases t with
    | nil => simp [root?] at h
    | node n l r =>
      rw [marks, List.mem_append, List.mem_append]
      cases s with
      | left => exact .inl (.inl (ih h))
      | right => exact .inl (.inr (ih h))

theorem Falling.subtreeAt {t : IR} (h : t.Falling) (p : Path) : IR.Falling (t.subtreeAt p) := by
  induction p generalizing t with
  | nil => exact h
  | cons s p ih =>
    cases t with
    | nil => exact ih (t := .nil) trivial
    | node n l r =>
      cases s with
      | left => exact ih h.2.1
      | right => exact ih h.2.2

theorem Falling.lt {t : IR} (h : t.Falling) {p q : Path} {a b : IRNode} (hq : q ≠ [])
    (ha : (t.subtreeAt p).root? = some a) (hb : (t.subtreeAt (p ++ q)).root? = some b) :
    b.statementId < a.statementId := by
  have hp := h.subtreeAt p
  rw [subtreeAt_append] at hb
  obtain ⟨s,q,rfl⟩ := List.exists_cons_of_ne_nil hq
  cases hsub : t.subtreeAt p with
  | nil => simp [hsub, root?] at ha
  | node n l r =>
    rw [hsub] at ha hb hp
    cases ha
    apply hp.1
    rw [List.mem_append]
    cases s with
    | left => exact .inl (mem_ids hb)
    | right => exact .inr (mem_ids hb)

theorem idsInOrder_of_sorted {t : IR} (h : t.marks.Pairwise (· < ·)) : IdsInOrder t := by
  intro p q a b hpq ha hb hka hkb
  obtain ⟨c,p',q',rfl,rfl⟩ := hpq
  induction c generalizing t with
  | nil =>
    cases t with
    | nil => simp [root?] at ha
    | node n l r =>
      rw [marks, List.append_assoc, List.pairwise_append] at h
      exact h.2.2 _ (mem_marks ha hka) _ (List.mem_append_left _ (mem_marks hb hkb))
  | cons s c ih =>
    cases t with
    | nil => simp [root?] at ha
    | node n l r =>
      rw [marks, List.pairwise_append, List.pairwise_append] at h
      cases s with
      | left => exact ih h.1.1 ha hb
      | right => exact ih h.1.2.1 ha hb

end IR

def IM.tree? : IM → Option IR
  | .str _ => none
  | .ir t => some t

def forest (stk : List IM) : List IR := stk.filterMap IM.tree?

theorem forest_append (stk stk' : List IM) : forest (stk ++ stk') = forest stk ++ forest stk' :=
  List.filterMap_append ..

theorem flatMap_slots {α : Type} {f : IR → List α} (hf : f .nil = []) (o : OneIR) :
    (forest o.slots).flatMap f = f (o.left.getD .nil) ++ f (o.right.getD .nil) := by
  obtain ⟨pre,mid,suf,l,r⟩ := o
  have hpre : forest (pre.map IM.str).toList = [] := by cases pre <;> rfl
  have hmid : forest (mid.map IM.str).toList = [] := by cases mid <;> rfl
  have hsuf : forest (suf.map IM.str).toList = [] := by cases suf <;> rfl
  have hslot : ∀ x : Option IR, (forest (x.map IM.ir).toList).flatMap f = f (x.getD .nil) := by
    intro x
    cases x with
    | none => exact hf.symm
    | some t => simp [forest, IM.tree?]
  simp only [OneIR.slots, forest_append, List.flatMap_append, hpre, hmid, hsuf, hslot,
    List.nil_append, List.append_nil]

structure Numbered (lo hi : ℕ) (ts : List IR) : Prop where
  between : ∀ i : ℕ, i ∈ ts.flatMap IR.ids → lo ≤ i ∧ i < hi
  distinct : (ts.flatMap IR.ids).Nodup
  falling : ∀ t ∈ ts, t.Falling
  sorted : (ts.flatMap IR.marks).Pairwise (· < ·)

theorem Numbered.nil (lo hi : ℕ) : Numbered lo hi [] := by constructor <;> simp

theorem mem_marks_flatMap {ts : List IR} {i : ℕ} (h : i ∈ ts.flatMap IR.marks) : i ∈ ts.flatMap IR.ids := by
  obtain ⟨t,ht,hi⟩ := List.mem_flatMap.mp h
  exact List.mem_flatMap.mpr ⟨t,ht,IR.mem_ids_of_mem_marks hi⟩

theorem Numbered.append {lo mid hi : ℕ} {ts us : List IR} (ht : Numbered lo mid ts)
    (hu : Numbered mid hi us) (hlo : lo ≤ mid) (hhi : mid ≤ hi) : Numbered lo hi (ts ++ us) := by
  constructor
  · intro i hi'
    rw [List.flatMap_append, List.mem_append] at hi'
    rcases hi' with h | h
    · have := ht.between i h
      omega
    · have := hu.between i h
      omega
  · rw [List.flatMap_append]
    apply List.nodup_append'.mpr
    refine ⟨ht.distinct,hu.distinct,fun i h h' => ?_⟩
    have h₁ := ht.between i h
    have h₂ := hu.between i h'
    omega
  · intro t h
    rcases List.mem_append.mp h with h | h
    · exact ht.falling t h
    · exact hu.falling t h
  · rw [List.flatMap_append]
    apply List.pairwise_append.mpr
    refine ⟨ht.sorted,hu.sorted,fun i h j h' => ?_⟩
    have h₁ := ht.between i (mem_marks_flatMap h)
    have h₂ := hu.between j (mem_marks_flatMap h')
    exact lt_of_lt_of_le h₁.2 h₂.1

section
variable {uninit : StatementID → ScopeID}

/-- The next id goes to a node over the first trees; a type of the grammar needs
that no tree follows them. -/
theorem Numbered.toIR {lo id : ℕ} {o : OneIR} {us : List IR} (type : IRType)
    (h : Numbered lo id (forest o.slots ++ us)) (hlo : lo ≤ id) (htype : us = [] ∨ type = kUnknown) :
    Numbered lo (id + 1) (o.toIR uninit type id :: us) := by
  obtain ⟨hbetween,hdistinct,hfalling,hsorted⟩ := h
  rw [List.flatMap_append, flatMap_slots rfl] at hbetween hdistinct hsorted
  have hids : (o.toIR uninit type id :: us).flatMap IR.ids =
      id :: ((o.left.getD .nil).ids ++ (o.right.getD .nil).ids ++ us.flatMap IR.ids) := by
    rw [List.flatMap_cons, OneIR.toIR, IR.ofOperator, IR.ids_node, List.cons_append]
  have hchild : ∀ x : Option IR, x = o.left ∨ x = o.right → (x.getD .nil).Falling := by
    intro x hx
    cases x with
    | none => trivial
    | some t =>
      apply hfalling t
      have hmem : t ∈ forest o.slots := by
        rcases hx with hx | hx <;> simp [forest, OneIR.slots, ← hx, IM.tree?]
      exact List.mem_append_left _ hmem
  constructor
  · rw [hids]
    intro i hi
    rcases List.mem_cons.mp hi with rfl | hi
    · exact ⟨hlo,Nat.lt_succ_self _⟩
    · have hb := hbetween i hi
      exact ⟨hb.1,by omega⟩
  · rw [hids]
    apply List.nodup_cons.mpr
    refine ⟨fun hi => ?_,hdistinct⟩
    have hb := hbetween id hi
    omega
  · intro t ht
    rcases List.mem_cons.mp ht with rfl | ht
    · refine ⟨fun i hi => ?_,hchild _ (.inl rfl),hchild _ (.inr rfl)⟩
      exact (hbetween i (List.mem_append_left _ hi)).2
    · exact hfalling t (List.mem_append_right _ ht)
  · by_cases hk : type = kUnknown
    · simpa [OneIR.toIR, IR.ofOperator, IR.marks, hk] using hsorted
    · obtain rfl : us = [] := htype.resolve_right hk
      have hmarks : [o.toIR uninit type id].flatMap IR.marks =
          (o.left.getD .nil).marks ++ (o.right.getD .nil).marks ++ [id] := by
        simp [OneIR.toIR, IR.ofOperator, IR.marks, hk]
      rw [hmarks]
      apply List.pairwise_append.mpr
      refine ⟨by simpa using hsorted,List.pairwise_singleton _ _,fun i hi j hj => ?_⟩
      rw [List.mem_singleton] at hj
      subst hj
      apply (hbetween i _).2
      rw [List.mem_append] at hi ⊢
      rw [List.mem_append]
      exact .inl (hi.imp IR.mem_ids_of_mem_marks IR.mem_ids_of_mem_marks)

theorem Folded.numbered {type : IRType} {lo id id' : ℕ} {stk : List IM} {t : IR}
    (h : Folded uninit type id stk t id') (hstk : Numbered lo id (forest stk)) (hlo : lo ≤ id) :
    Numbered lo id' [t] ∧ id < id' := by
  induction h with
  | last o id =>
    refine ⟨Numbered.toIR type ?_ hlo (.inl rfl),Nat.lt_succ_self id⟩
    rwa [List.append_nil]
  | @more o id id' stk t hne h ih =>
    rw [forest_append] at hstk
    have hnext : Numbered lo (id + 1) (o.toIR uninit kUnknown id :: forest stk) := hstk.toIR _ hlo (.inr rfl)
    obtain ⟨ht,hlt⟩ := ih hnext (by omega)
    exact ⟨ht,by omega⟩

theorem Numbered.ofData (type : IRType) (data : IRData) (id : ℕ) :
    Numbered id (id + 1) [IR.ofData uninit type data id] := by
  constructor
  · simp [IR.ofData]
  · simp [IR.ofData]
  · simp [IR.ofData, IR.Falling]
  · by_cases hk : type = kUnknown <;> simp [IR.ofData, IR.marks, hk]

theorem Numbered.decorate {lo hi : ℕ} {t : IR} (ctx : RuleContext) (h : Numbered lo hi [t]) :
    Numbered lo hi [decorate ctx t] := by
  have hroot : ∀ {u : IR} {f : IRNode → IRNode}, (∀ n, (f n).type = n.type ∧ (f n).statementId = n.statementId) →
      Numbered lo hi [u] → Numbered lo hi [u.modifyRoot f] := by
    intro u f hf hu
    cases u with
    | nil => exact hu
    | node n l r =>
      obtain ⟨hbetween,hdistinct,hfalling,hsorted⟩ := hu
      constructor
      · simpa [IR.modifyRoot, (hf n).2] using hbetween
      · simpa [IR.modifyRoot, (hf n).2] using hdistinct
      · simpa [IR.modifyRoot, IR.Falling, (hf n).2] using hfalling
      · simpa [IR.modifyRoot, IR.marks, (hf n).1, (hf n).2] using hsorted
  have hdata : Numbered lo hi [t.setDataType ctx.dataType] := hroot (fun _ => ⟨rfl,rfl⟩) h
  unfold PolyGlot.decorate
  by_cases hs : ctx.scopeType = .kScopeDefault
  · simpa [hs] using hdata
  · have hscope : Numbered lo hi [(t.setDataType ctx.dataType).setScopeType ctx.scopeType] :=
      hroot (fun _ => ⟨rfl,rfl⟩) hdata
    simpa [hs] using hscope

theorem ChildItems.numbered {cs : List ParseTree} {id id' : ℕ} {stk : List IM}
    (h : ChildItems uninit cs id stk id') (hcs : ∀ c ∈ cs, ∀ i i' r, translateNode uninit c i = .ok (r, i') →
      i ≤ i' ∧ ∀ u, r = some u → Numbered i i' [u]) : Numbered id id' (forest stk) ∧ id ≤ id' := by
  induction h with
  | nil id => exact ⟨.nil id id,le_rfl⟩
  | eof h ih | text ht h ih => exact ih fun c hc => hcs c (List.mem_cons_of_mem _ hc)
  | null ht h ih =>
    obtain ⟨hrest,hle⟩ := ih fun c hc => hcs c (List.mem_cons_of_mem _ hc)
    have hc := (hcs _ (List.mem_cons_self ..) _ _ _ ht).1
    exact ⟨by simpa using (Numbered.nil _ _).append hrest hc hle,le_trans hc hle⟩
  | tree ht h ih =>
    obtain ⟨hrest,hle⟩ := ih fun c hc => hcs c (List.mem_cons_of_mem _ hc)
    obtain ⟨hc,hu⟩ := hcs _ (List.mem_cons_self ..) _ _ _ ht
    exact ⟨(hu _ rfl).append hrest hc hle,le_trans hc hle⟩

/-- A translation uses up ids and never goes back. -/
theorem translateNode_numbered {t : ParseTree} {id id' : ℕ} {r : Option IR}
    (h : translateNode uninit t id = .ok (r, id')) : id ≤ id' ∧ ∀ u, r = some u → Numbered id id' [u] := by
  induction t using ParseTree.induction generalizing id id' r with
  | terminal text => simp [translateNode] at h
  | rule ctx cs ih =>
    cases translateNode_step h with
    | string hs =>
      refine ⟨Nat.le_succ id,?_⟩
      rintro u ⟨⟩
      exact (Numbered.ofData ..).decorate ctx
    | int hs hi htext =>
      refine ⟨Nat.le_succ id,?_⟩
      rintro u ⟨⟩
      exact (Numbered.ofData ..).decorate ctx
    | null hs hi htext hitems =>
      refine ⟨(hitems.numbered fun c hc i i' r => ih c hc).2,?_⟩
      rintro u ⟨⟩
    | fold hs hi hitems hstk hfold =>
      obtain ⟨hforest,hle⟩ := hitems.numbered fun c hc i i' r => ih c hc
      obtain ⟨ht,hlt⟩ := hfold.numbered hforest hle
      refine ⟨by omega,?_⟩
      rintro u ⟨⟩
      exact ht.decorate ctx

/-- The ids of a translated tree are distinct, larger than all ids below, and in
source order among the nodes with a type of the grammar. -/
theorem translateNode_idsInOrder {t : ParseTree} {id id' : ℕ} {u : IR}
    (h : translateNode uninit t id = .ok (some u, id')) :
    (u.values.map IRNode.statementId).Nodup ∧
    (∀ p q a b, q ≠ [] → (u.subtreeAt p).root? = some a → (u.subtreeAt (p ++ q)).root? = some b →
      b.statementId < a.statementId) ∧ IdsInOrder u := by
  have hu := (translateNode_numbered h).2 u rfl
  refine ⟨?_,?_,?_⟩
  · simpa [IR.ids] using hu.distinct
  · intro p q a b hq ha hb
    exact (hu.falling u (List.mem_singleton_self u)).lt hq ha hb
  · exact IR.idsInOrder_of_sorted (by simpa using hu.sorted)

end

def threeInts : ParseTree :=
  .rule ⟨0,false,false,false,.kDataDefault,.kScopeGlobal⟩
    (["7".toList,"8".toList,"9".toList].map fun text =>
      .rule ⟨1,false,false,true,.kDataDefault,.kScopeDefault⟩ [.terminal text])

def threeIntsIR : IR :=
  let int (i : ℤ) (k : StatementID) : IR := IR.ofData id 1 (.int i) k
  decorate ⟨0,false,false,false,.kDataDefault,.kScopeGlobal⟩
    (IR.ofOperator id 0 .empty (IR.ofOperator id kUnknown .empty (int 7 0) (int 8 1) 3) (int 9 2) 4)

theorem threeInts_idsInOrder : (threeIntsIR.values.map IRNode.statementId).Nodup ∧
    (∀ p q a b, q ≠ [] → (threeIntsIR.subtreeAt p).root? = some a → (threeIntsIR.subtreeAt (p ++ q)).root? = some b →
      b.statementId < a.statementId) ∧ IdsInOrder threeIntsIR := by
  have hrun : translateNode id threeInts 0 = .ok (some threeIntsIR,5) := by
    decide +kernel
  exact translateNode_idsInOrder hrun

end PolyGlot
