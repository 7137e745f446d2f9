import PolyGlot.Mutation.Language
import PolyGlot.Mutation.Shelving
import PolyGlot.Support.Marks

set_option autoImplicit false

/-! # What the library offers

A type that has an entry keeps one, and `GetRandomIR` then gives an entry of
that type; so where the types of its children have entries, a node has variants
with its own interface only. A type gets an entry when `SaveIRRecursive` comes
to a node of it, and a node whose text is known for its type keeps it from the
nodes below.
-/
namespace PolyGlot

open BinaryTree TreeHeap Prog KeyedList Marks

/-- The trees have one type, the same children, and their children one type each. -/
structure KeepsInterface (v cur : IR) : Prop where
  type : v.type? = cur.type?
  has : ∀ sd, v.child sd = .nil ↔ cur.child sd = .nil
  child : ∀ sd, IR.type? (v.child sd) = IR.type? (cur.child sd)

theorem keepsInterface_of {v cur : IR} (htype : v.type? = cur.type?)
    (hchild : ∀ sd, IR.type? (v.child sd) = IR.type? (cur.child sd)) : KeepsInterface v cur := by
  refine ⟨htype,fun sd => ?_,hchild⟩
  rw [← type?_eq_none_iff, ← type?_eq_none_iff, hchild sd]

theorem type?_deepCopy (t : IR) : IR.type? (deepCopy t) = t.type? := by cases t <;> rfl

theorem type?_child_deepCopy (t : IR) (sd : Side) : IR.type? ((deepCopy t).child sd) = IR.type? (t.child sd) := by
  rw [deepCopy, child_map]
  exact type?_deepCopy _

theorem type?_setChild (t u : IR) (sd : Side) : IR.type? (setChild sd u t) = t.type? := by
  cases t with
  | nil => rfl
  | node n l r => cases sd <;> rfl

/-- A child that is replaced by a tree of its type. -/
theorem KeepsInterface.setChild {v cur u : IR} (h : KeepsInterface v cur) {sd : Side}
    (hu : u.type? = IR.type? (cur.child sd)) : KeepsInterface (setChild sd u v) cur := by
  refine keepsInterface_of ((type?_setChild ..).trans h.type) fun sd' => ?_
  cases v with
  | nil => exact h.child sd'
  | node n l r =>
    cases sd <;> cases sd'
    · exact hu
    · exact h.child .right
    · exact h.child .left
    · exact hu

theorem keepsInterface_deepCopy (t : IR) : KeepsInterface (deepCopy t) t :=
  keepsInterface_of (type?_deepCopy t) (type?_child_deepCopy t)

/-- Where the types of the children have entries, every variant has the interface
of the node. -/
theorem Variant.keepsInterface {lib : Entries} {cur v : IR} (h : Variant lib cur v) (hshould : shouldMutate cur)
    (hshelved : ∀ T, ∀ e ∈ lib T, e.type? = some T) (hentry : ∀ sd T, IR.type? (cur.child sd) = some T → lib T ≠ []) :
    KeepsInterface v cur := by
  have hoffered : ∀ {sd e}, notUnknown (cur.child sd) → Offered lib ((IR.type? (cur.child sd)).getD 0) e →
      e.type? = IR.type? (cur.child sd) := by
    intro sd e hknown he
    cases htype : IR.type? (cur.child sd) with
    | none => simp [notUnknown, htype] at hknown
    | some T =>
      rw [htype, Option.getD_some] at he
      rcases he with he | ⟨hempty,_⟩
      · exact hshelved T e he
      · exact absurd hempty (hentry sd T htype)
  cases h with
  | swap hop hres hl hr =>
    rename_i n m cl cr rl rr
    have htype : m.type = n.type := by
      rcases hres with hres | ⟨_,hempty⟩
      · exact Option.some.inj (hshelved _ _ hres)
      · -- without an entry for its own type the node would have to be a leaf
        cases hempty
        have hcl : cl = .nil := type?_eq_none_iff.mp (of_decide_eq_true hl).symm
        have hcr : cr = .nil := type?_eq_none_iff.mp (of_decide_eq_true hr).symm
        rw [hcl, hcr] at hshould
        simp [shouldMutate, IR.isLeaf] at hshould
    apply keepsInterface_of
    · exact congrArg some htype
    · intro sd
      cases sd <;> exact type?_deepCopy _
  | child sd hknown he =>
    apply (keepsInterface_deepCopy cur).setChild
    rw [type?_deepCopy]
    exact hoffered hknown he
  | both hl hr he he' =>
    apply KeepsInterface.setChild
    · apply (keepsInterface_deepCopy cur).setChild
      rw [type?_deepCopy]
      exact hoffered hr he'
    · rw [type?_deepCopy]
      exact hoffered hl he

section
variable {g g₀ : Garbage}

/-- Every tree that `MutateIR` returns has the interface of its node. -/
theorem mutateIRAt_keepsInterface {s : Mutator} (h : LibraryRun g₀ (fun _ => True) s)
    {cur : BinaryTree (ℕ × IRNode)} (hcur : Holds s.heap cur) (hne : cur ≠ .nil) (hshould : shouldMutate (vals cur))
    (hentry : ∀ sd T, IR.type? ((vals cur).child sd) = some T → s.irLibrary T ≠ []) (rand : Rand) :
    ∃ ps s', mutateIRAt g (ptr cur) { s with rand := rand } = .ok (ps,s') ∧
      ∀ q ∈ ps, ∃ v, Leads s' q v ∧ KeepsInterface v (vals cur) := by
  obtain ⟨lib,hinv,-,hempty⟩ := h.inv
  have hready : Ready s.heap.next lib { s with rand := rand } := (hinv.ready hempty).withRand rand
  obtain ⟨ps,s',hrun,us,hall⟩ := meets_mutateIRAt (g := g) hready hcur hne
  have hshelved : ∀ T, ∀ e ∈ lib.values T, e.type? = some T := by
    intro T e he
    obtain ⟨u,hu,rfl⟩ := List.mem_map.mp he
    exact hinv.type T u hu
  have hentry' : ∀ sd T, IR.type? ((vals cur).child sd) = some T → lib.values T ≠ [] := by
    intro sd T hT hnil
    apply hentry sd T hT
    rw [hinv.entries, List.map_eq_nil_iff]
    exact List.map_eq_nil_iff.mp hnil
  refine ⟨ps,s',hrun,fun q hq => ?_⟩
  rw [hall.ptrs] at hq
  obtain ⟨u,hu,rfl⟩ := List.mem_map.mp hq
  have hmem : IR.erase (vals u) ∈ (mutateIR lib.values (vals cur) rand).1 := by
    rw [← hall.vals]
    exact List.mem_map_of_mem hu
  have hkeeps := (variant_mutateIR hmem).keepsInterface hshould hshelved hentry'
  refine ⟨vals u,⟨u,rfl,(hall.fresh.fresh u hu).holds,rfl⟩,keepsInterface_of ?_ fun sd => ?_⟩
  · rw [← hkeeps.type, type?_erase]
  · rw [← hkeeps.child sd, IR.erase, child_map]
    exact (type?_erase _).symm

end

/-- The middle node of `(x)`, with a library made from `(x)`. -/
theorem parens_keepsInterface : ∃ (s s' : Mutator) (root : BinaryTree (ℕ × IRNode)),
    translateToIR zeroed parenProgram (Mutator.start Heap.empty (Stream'.const 0)) = .ok (ptr root,s) ∧
    addToIRLibrary zeroed parenProgram s = .ok ((),s') ∧
    ∃ ps s'', mutateIRAt zeroed (ptr (root.child .left)) { s' with rand := Stream'.const 1 } = .ok (ps,s'') ∧
      ∀ q ∈ ps, ∃ v, Leads s'' q v ∧ KeepsInterface v (vals (root.child .left)) := by
  have hstart : LibraryRun zeroed (fun _ => True) (Mutator.start Heap.empty (Stream'.const 0)) := Mutator.start_run ..
  obtain ⟨ir,id',htranslate,hshould,hright,hleft⟩ : ∃ ir id',
      translateNode zeroed.scopeId parenProgram 0 = .ok (some ir,id') ∧ shouldMutate (ir.child .left) = true ∧
      IR.type? ((ir.child .left).child .right) = none ∧ IR.type? ((ir.child .left).child .left) = some 2 :=
    ⟨_,_,rfl,by decide +kernel⟩
  obtain ⟨_,s,hrun,root,hnew,rfl,rfl,hlist,hhash,hempty,-⟩ := meets_translateToIR (g := zeroed)
    (s := Mutator.start Heap.empty (Stream'.const 0)) htranslate
  have hs : LibraryRun zeroed (fun _ => True) s := .elsewhere hstart hnew.ext hlist hhash (.inl hempty)
  have hlists : parensRun = .ok true := by decide +kernel
  obtain ⟨⟨_,s₁⟩,hs₁,hlists⟩ := bind_ok hlists
  rw [hrun] at hs₁
  cases hs₁
  obtain ⟨⟨⟨⟩,s'⟩,hadd,hlists⟩ := bind_ok hlists
  obtain ⟨_,_,hword⟩ := of_decide_eq_true (Except.ok.inj hlists)
  obtain ⟨lib,hinv,-⟩ := hs.inv
  obtain ⟨lib',hadded⟩ := addToIRLibrary_added hinv hadd
  have hvals : vals (root.child .left) = (vals root).child .left := (child_map ..).symm
  rw [← hvals] at hshould hright hleft
  have hne : root.child .left ≠ .nil := by
    intro hnil
    rw [hnil] at hleft
    cases hleft
  have hentry : ∀ sd T, IR.type? ((vals (root.child .left)).child sd) = some T → s'.irLibrary T ≠ [] := by
    intro sd T hT
    cases sd with
    | left =>
      rw [hleft] at hT
      cases hT
      exact hword
    | right =>
      rw [hright] at hT
      cases hT
  have hcur : Holds s'.heap (root.child .left) := (hnew.holds.keep hadded.ext).subtreeAt [.left]
  exact ⟨s,s',root,hrun,hadd,mutateIRAt_keepsInterface (.add hs trivial hadd) hcur hne hshould hentry _⟩

/-- `SaveIRRecursive` on the lists of the library. -/
def libraryWalk : Walk IRNode (IRType × UInt64) (Entries × Rand) where
  key n l r := (n.type,IR.hash (.node n l r))
  marked s k := decide (k.2 ∈ (s.1 k.1).map IR.hash)
  enter n l r s :=
    let room := makeRoom (s.1 n.type) s.2
    (Function.update s.1 n.type (room.1 ++ [.node n l r]),room.2)

theorem run_libraryWalk (t : IR) (s : Entries × Rand) : libraryWalk.run t s = saveIR t s := by
  induction t generalizing s with
  | nil => rfl
  | node n l r ihl ihr =>
    rw [Walk.run, saveIR]
    simp only [libraryWalk, decide_eq_true_eq] at ihl ihr ⊢
    split
    · rfl
    · rw [ihl, ihr]

theorem mem_makeRoom {es : List IR} {r : Rand} {e : IR} (h : e ∈ (makeRoom es r).1) : e ∈ es := by
  unfold makeRoom at h
  split at h
  · rename_i hfull
    have hpos : 0 < es.length := Nat.lt_of_lt_of_le (by decide) hfull
    exact mem_of_mem_swapPop (Nat.mod_lt _ hpos) h
  · exact h

theorem makeRoom_of_lt {es : List IR} {r : Rand} (h : es.length < kMaxIRNumForOneType) : makeRoom es r = (es,r) :=
  if_neg (by omega)

theorem libraryWalk_marksOwn : libraryWalk.MarksOwn := by
  intro n l r s k hk
  simp only [libraryWalk, decide_eq_true_eq] at hk ⊢
  by_cases hT : k.1 = n.type
  · rw [hT, Function.update_self, List.map_append, List.mem_append] at hk
    rcases hk with hk | hk
    · obtain ⟨e,he,hhash⟩ := List.mem_map.mp hk
      exact .inl (hT ▸ List.mem_map.mpr ⟨e,mem_makeRoom he,hhash⟩)
    · exact .inr (Prod.ext hT (List.mem_singleton.mp hk))
  · rw [Function.update_of_ne hT] at hk
    exact .inl hk

theorem libraryWalk_collects (T : IRType) : libraryWalk.Collects (fun s => s.1 T ≠ []) fun n => n.type = T := by
  constructor
  · intro n l r s
    by_cases hT : T = n.type
    · subst hT
      simp [libraryWalk]
    · simp [libraryWalk, Function.update_of_ne hT, Ne.symm hT]
  · rintro n l r s rfl hmarked hnil
    simp only [libraryWalk, decide_eq_true_eq, hnil] at hmarked
    cases hmarked

def HasRoom (s : Entries × Rand) (ns : List IRNode) : Prop :=
  ∀ T, (s.1 T).length + ns.countP (·.type = T) ≤ kMaxIRNumForOneType

theorem libraryWalk_keepsMarks : libraryWalk.KeepsMarks HasRoom := by
  have henter : ∀ {n l r s ns}, HasRoom s (n :: ns) →
      libraryWalk.enter n l r s = (Function.update s.1 n.type (s.1 n.type ++ [.node n l r]),s.2) := by
    intro n l r s ns hroom
    have hT := hroom n.type
    rw [List.countP_cons_of_pos (by simp)] at hT
    have hfits : makeRoom (s.1 n.type) s.2 = (s.1 n.type,s.2) := makeRoom_of_lt (by omega)
    simp only [libraryWalk, hfits]
  constructor
  · intro n l r s ns hroom T
    have hT := hroom T
    rw [henter hroom]
    dsimp only
    by_cases heq : T = n.type
    · subst heq
      rw [List.countP_cons_of_pos (by simp)] at hT
      rw [Function.update_self, List.length_append, List.length_singleton]
      omega
    · rw [List.countP_cons_of_neg (by simpa using Ne.symm heq)] at hT
      rwa [Function.update_of_ne heq]
  · intro n l r s ns k hroom hk
    rw [henter hroom]
    simp only [libraryWalk, decide_eq_true_eq] at hk ⊢
    by_cases heq : k.1 = n.type
    · rw [heq, Function.update_self, List.map_append, List.mem_append, ← heq]
      exact .inl hk
    · rwa [Function.update_of_ne heq]
  · intro s ns ms hroom T
    have hT := hroom T
    rw [List.countP_append] at hT
    omega

def Mutator.lists (s : Mutator) : (IRType → List Ptr) × (IRType → Finset UInt64) := (s.irLibrary,s.irLibraryHash)

theorem onHeap_lists {α : Type} {m : Mem α} {s s' : Mutator} {a : α} (h : onHeap m s = .ok (a,s')) :
    s'.lists = s.lists := by
  simp only [onHeap, onPart] at h
  cases hm : m s.heap with
  | error e =>
    rw [hm] at h
    cases h
  | ok p =>
    rw [hm] at h
    cases h
    rfl

theorem getRandInt_lt {range : ℕ} {s s' : Mutator} {i : ℕ} (h : getRandInt range s = .ok (i,s')) : i < range := by
  unfold getRandInt at h
  split at h
  · cases h
  · rename_i hpos
    cases h
    exact Nat.mod_lt _ (Nat.pos_of_ne_zero hpos)

/-- One call of `SaveIRRecursive`: the state before it, the tree and its root,
and the state after it. -/
structure Addition where
  before : Mutator
  root : Ptr
  tree : IR
  after : Mutator

section
variable (g : Garbage)

/-- The states that calls of `AddIRToLibrary` on freshly translated trees lead to,
with what these calls did, the last one first. -/
inductive AdditionRun : Mutator → List Addition → Prop
  | start {s : Mutator} (hlist : s.irLibrary = fun _ => []) (hhash : s.irLibraryHash = fun _ => ∅)
      (hempty : EmptyOk s) : AdditionRun s []
  | add {s s₁ s₂ s' : Mutator} {steps : List Addition} {t : ParseTree} {root : Ptr} {tree : IR}
      (h : AdditionRun s steps) (htranslate : translateToIR g t s = .ok (root,s₁)) (hroot : root ≠ none)
      (hextract : extractStructureAt g root s₁ = .ok ((),s₂)) (htree : Leads s₂ root tree)
      (hsave : saveIRRecursive root s₂ = .ok ((),s')) : AdditionRun s' (⟨s₂,root,tree,s'⟩ :: steps)
  | elsewhere {s s' : Mutator} {steps : List Addition} (h : AdditionRun s steps) (hext : Extends s.heap s'.heap)
      (hlist : s'.irLibrary = s.irLibrary) (hhash : s'.irLibraryHash = s.irLibraryHash)
      (hempty : EmptyOk s') : AdditionRun s' steps

/-- For every node of the tree the library has an entry, and `GetRandomIR` gives
an entry of that type. -/
def Available (s : Mutator) (t : IR) : Prop :=
  ∀ n ∈ t.values, s.irLibrary n.type ≠ [] ∧ ∀ r, ∃ p s', getRandomIRAt g n.type { s with rand := r } = .ok (p,s') ∧
    p ∈ s.irLibrary n.type ∧ ∃ u, Leads s' p u ∧ u.type? = some n.type

def libraryKey : IR → Option (IRType × UInt64)
  | .nil => none
  | .node n l r => some (n.type,IR.hash (.node n l r))

/-- Each type of the tree that has no entry yet is that of some node, and above it
no node has a hash that the library knows for its type, or the type and the hash of
an earlier node. -/
def Addition.ReachesNew (a : Addition) : Prop :=
  ∀ n ∈ a.tree.values, a.before.irLibrary n.type = [] → ∃ p, IR.type? (a.tree.subtreeAt p) = some n.type ∧
    Unmarked libraryKey (fun k => k.2 ∈ a.before.irLibraryHash k.1) a.tree p ∧ Unrepeated libraryKey a.tree p

/-- No list has to give up an entry for the nodes of the tree. -/
def Addition.Fits (a : Addition) : Prop :=
  ∀ T, (a.before.irLibrary T).length + a.tree.values.countP (·.type = T) ≤ kMaxIRNumForOneType

/-- No two nodes of the tree have one type and one hash. -/
def Addition.Distinct (a : Addition) : Prop := ∀ q, FirstAt libraryKey a.tree q

variable {g}

theorem AdditionRun.libraryRun {s : Mutator} {steps : List Addition} (h : AdditionRun g s steps) :
    LibraryRun g (fun _ => True) s := by
  induction h with
  | start hlist hhash hempty => exact .start hlist hhash hempty
  | add h htranslate hroot hextract htree hsave ih =>
    rename_i t root tree
    refine .add ih trivial (t := t) ?_
    rw [addToIRLibrary, run_bind, htranslate]
    change onlyIf _ _ _ = _
    rw [onlyIf, if_pos (Option.isSome_iff_ne_none.mpr hroot), addIRToLibrary, run_bind, hextract]
    exact hsave
  | elsewhere h hext hlist hhash hempty ih => exact .elsewhere ih hext hlist hhash hempty

theorem newLeaf_lists {type : IRType} {str : Str} {s s' : Mutator} {p : Ptr} (h : newLeaf g type str s = .ok (p,s')) :
    s'.lists = s.lists := by
  obtain ⟨id,s₁,htake,h⟩ := of_bind h
  have hnew := onHeap_lists h
  cases htake
  exact hnew

theorem getRandomIRAt_mem {T : IRType} {s s' : Mutator} {p : Ptr} (h : getRandomIRAt g T s = .ok (p,s'))
    (hT : s.irLibrary T ≠ []) : p ∈ s.irLibrary T := by
  obtain ⟨s₀,s₁,hget,h⟩ := of_bind h
  cases hget
  obtain ⟨⟨⟩,s₂,hstatic,h⟩ := of_bind h
  have hlists : s₂.lists = s.lists := by
    unfold onlyIf at hstatic
    split at hstatic
    · obtain ⟨e,s₃,hleaf,hset⟩ := of_bind hstatic
      have hnew := newLeaf_lists hleaf
      cases hset
      exact hnew
    · cases hstatic
      rfl
  obtain ⟨hlist,_⟩ := Prod.mk.inj hlists
  obtain ⟨s₃,s₄,hget,h⟩ := of_bind h
  cases hget
  rw [← hlist] at hT ⊢
  rw [if_neg hT] at h
  obtain ⟨i,s₅,hrand,h⟩ := of_bind h
  cases h
  have hi := getRandInt_lt hrand
  rw [List.getD_eq_getElem?_getD, List.getElem?_eq_getElem hi, Option.getD_some]
  exact List.getElem_mem hi

/-- An entry is enough. -/
theorem available_iff {s : Mutator} (h : LibraryRun g (fun _ => True) s) {t : IR} :
    Available g s t ↔ ∀ n ∈ t.values, s.irLibrary n.type ≠ [] := by
  constructor
  · exact fun h n hn => (h n hn).1
  · intro hentries n hn
    obtain ⟨lib,hinv,-,hempty⟩ := h.inv
    refine ⟨hentries n hn,fun r => ?_⟩
    have hready : Ready s.heap.next lib { s with rand := r } := (hinv.ready hempty).withRand r
    obtain ⟨p,s',hrun,hstep,-⟩ := meets_getRandomIRAt (g := g) hready n.type
    have hmem : p ∈ ({ s with rand := r } : Mutator).irLibrary n.type := getRandomIRAt_mem hrun (hentries n hn)
    refine ⟨p,s',hrun,hmem,?_⟩
    change p ∈ s.irLibrary n.type at hmem
    rw [hinv.entries] at hmem
    obtain ⟨u,hu,rfl⟩ := List.mem_map.mp hmem
    exact ⟨vals u,⟨u,rfl,(hinv.holds _ u hu).keep hstep.ext,rfl⟩,hinv.type _ u hu⟩

structure Describes (s : Mutator) (e : Entries × Rand) : Prop where
  length : ∀ T, (s.irLibrary T).length = (e.1 T).length
  marked : ∀ k : IRType × UInt64, k.2 ∈ s.irLibraryHash k.1 ↔ libraryWalk.marked e k

theorem Describes.ne_nil_iff {s : Mutator} {e : Entries × Rand} (h : Describes s e) (T : IRType) :
    s.irLibrary T ≠ [] ↔ e.1 T ≠ [] := by
  rw [Ne, ← List.length_eq_zero_iff, h.length, List.length_eq_zero_iff]

theorem LibraryInv.describes {s : Mutator} {lib : Shelves} (h : LibraryInv s lib) (r : Rand) : Describes s (lib.erased,r) := by
  constructor
  · intro T
    rw [h.entries, List.length_map]
    exact (List.length_map _).symm
  · intro k
    have hhash : (fun t => IR.hash (IR.erase (vals t))) = entryHash := funext fun t => hash_erase _
    simp only [libraryWalk, decide_eq_true_eq, Shelves.erased, List.map_map, Function.comp_def, hhash]
    rw [(h.tracked k.1).keys, List.mem_toFinset]

theorem libraryKey_eq (t : IR) : libraryKey t = libraryWalk.keyOf t := by cases t <;> rfl

theorem libraryKey_erase (t : IR) : libraryKey t.erase = libraryKey t := by
  cases t with
  | nil => rfl
  | node n l r => exact congrArg (fun h => some (n.type,h)) (hash_erase (.node n l r))

/-- A tree that was translated and extracted, where it is saved. -/
theorem meets_extracted {s : Mutator} {lib : Shelves} (h : LibraryInv s lib) {t : ParseTree} {ir : IR} {id' : StatementID}
    (ht : translateNode g.scopeId t s.idCounter = .ok (some ir,id')) :
    ∃ root s₁ s₂ w, translateToIR g t s = .ok (root,s₁) ∧ extractStructureAt g root s₁ = .ok ((),s₂) ∧
      s₂.lists = s.lists ∧ LibraryInv s₂ lib ∧ ptr w = root ∧ w ≠ .nil ∧ Holds s₂.heap w ∧
      vals w = (extractStructure g.scopeId ir s₁.idCounter).1 := by
  obtain ⟨_,s₁,htranslate,u,hnew,rfl,hvals,hlist,hhash,-⟩ := meets_translateToIR ht
  have hne : u ≠ .nil := by
    rw [Ne, ← vals_eq_nil, hvals]
    exact translateNode_ne_nil ht
  obtain ⟨⟨⟩,s₂,hextract,w,hw,hwvals,hptr⟩ := meets_extractStructureAt (g := g) hnew.holds hnew.nodup hne
  have hrest := hw.rest
  simp only [Mutator.rest, Prod.mk.injEq] at hrest
  have hinv₁ : LibraryInv s₁ lib :=
    h.keep (fun T e he a ha => hnew.ext.cell a ((h.holds T e he).lt ha)) hlist hhash
  have hoff : ∀ T, ∀ e ∈ lib T, ∀ a ∈ addrs e, a ∉ addrs u := by
    intro T e he a ha hmem
    have hlt := (h.holds T e he).lt ha
    have hge := hnew.fresh a hmem
    omega
  have hinv₂ : LibraryInv s₂ lib :=
    hinv₁.keep (fun T e he a ha => hw.frame a ((hinv₁.holds T e he).lt ha) (hoff T e he a ha)) hrest.1 hrest.2.1
  have hwne : w ≠ .nil := by
    rw [Ne, ← ptr_eq_none, hptr, ptr_eq_none]
    exact hne
  exact ⟨ptr u,s₁,s₂,w,htranslate,hextract,Prod.ext (hrest.1.trans hlist) (hrest.2.1.trans hhash),hinv₂,hptr,hwne,hw.holds,
    hvals ▸ congrArg Prod.fst hwvals⟩

/-- What one addition does to the library. -/
theorem AdditionRun.step {s s₁ s₂ s' : Mutator} {steps : List Addition} {t : ParseTree} {root : Ptr} {tree : IR}
    (h : AdditionRun g s steps) (htranslate : translateToIR g t s = .ok (root,s₁)) (hroot : root ≠ none)
    (hextract : extractStructureAt g root s₁ = .ok ((),s₂)) (htree : Leads s₂ root tree)
    (hsave : saveIRRecursive root s₂ = .ok ((),s')) :
    s₂.lists = s.lists ∧ ∃ e, Describes s₂ e ∧ Describes s' (libraryWalk.run tree.erase e) := by
  obtain ⟨lib,hinv,-⟩ := h.libraryRun.inv
  obtain ⟨ir,id',ht⟩ : ∃ ir id', translateNode g.scopeId t s.idCounter = .ok (some ir,id') := by
    cases ht : translateNode g.scopeId t s.idCounter with
    | error f => simp [translateToIR, ht] at htranslate
    | ok out =>
      obtain ⟨_ | ir,id'⟩ := out
      · simp only [translateToIR, ht, Except.ok.injEq, Prod.mk.injEq] at htranslate
        exact absurd htranslate.1.symm hroot
      · exact ⟨ir,id',rfl⟩
  obtain ⟨_,_,_,w,htranslate',hextract',hlists,hinv₂,hptr,hne,hholds,-⟩ := meets_extracted hinv ht
  rw [htranslate] at htranslate'
  cases htranslate'
  rw [hextract] at hextract'
  cases hextract'
  obtain ⟨u,hu,huholds,rfl⟩ := htree
  obtain rfl : u = w := huholds.unique hholds (hu.trans hptr.symm)
  refine ⟨hlists,(lib.erased,s₂.rand),hinv₂.describes _,?_⟩
  have hmeets : Meets (saveIRRecursive (ptr u)) s₂ fun _ s' =>
      ∃ lib', Shelving s₂ s' (saveIR (IR.erase (vals u)) (lib.erased,s₂.rand)) lib' :=
    meets_deeply (meets_saveIRRecursiveRec_erased hinv₂ hholds hne (hholds.height_le.trans (Nat.le_succ _)))
  rw [hptr] at hmeets
  obtain ⟨lib',hshelved⟩ := hmeets.of_run hsave
  rw [run_libraryWalk, ← hshelved.erased]
  exact hshelved.inv.describes _

/-- Every addition of a run is a walk of its tree. -/
theorem AdditionRun.walks {s : Mutator} {steps : List Addition} (h : AdditionRun g s steps) {a : Addition}
    (ha : a ∈ steps) : LibraryRun g (fun _ => True) a.after ∧
      ∃ e, Describes a.before e ∧ Describes a.after (libraryWalk.run a.tree.erase e) := by
  induction h with
  | start hlist hhash hempty => cases ha
  | add h htranslate hroot hextract htree hsave ih =>
    rcases List.mem_cons.mp ha with rfl | ha
    · exact ⟨(AdditionRun.add h htranslate hroot hextract htree hsave).libraryRun,
        (h.step htranslate hroot hextract htree hsave).2⟩
    · exact ih ha
  | elsewhere h hext hlist hhash hempty ih => exact ih ha

/-- A type that has an entry after an addition keeps one. -/
theorem AdditionRun.keeps {s : Mutator} {steps : List Addition} (h : AdditionRun g s steps) {a : Addition}
    (ha : a ∈ steps) {T : IRType} (hT : a.after.irLibrary T ≠ []) : s.irLibrary T ≠ [] := by
  induction h with
  | start hlist hhash hempty => cases ha
  | add h htranslate hroot hextract htree hsave ih =>
    rcases List.mem_cons.mp ha with rfl | ha
    · exact hT
    · obtain ⟨hlists,e,hbefore,hafter⟩ := h.step htranslate hroot hextract htree hsave
      rw [hafter.ne_nil_iff]
      apply (libraryWalk_collects T).keeps
      rw [← hbefore.ne_nil_iff, (Prod.mk.inj hlists).1]
      exact ih ha
  | elsewhere h hext hlist hhash hempty ih =>
    rw [hlist]
    exact ih ha

/-- The nodes and keys of the tree that is saved are those of the tree. -/
theorem libraryKey_subtreeAt_erase (t : IR) (p : Path) : libraryWalk.keyOf (t.erase.subtreeAt p) = libraryKey (t.subtreeAt p) := by
  rw [← libraryKey_eq, IR.erase, subtreeAt_map]
  exact libraryKey_erase _

theorem Describes.unmarked_iff {s : Mutator} {e : Entries × Rand} (h : Describes s e) (t : IR) (p : Path) :
    Unmarked libraryWalk.keyOf (fun k => libraryWalk.marked e k) t.erase p ↔
      Unmarked libraryKey (fun k => k.2 ∈ s.irLibraryHash k.1) t p := by
  simp only [Unmarked, libraryKey_subtreeAt_erase, h.marked]

theorem unrepeated_erase_iff (t : IR) (p : Path) : Unrepeated libraryWalk.keyOf t.erase p ↔ Unrepeated libraryKey t p := by
  simp only [Unrepeated, FirstAt, libraryKey_subtreeAt_erase]

theorem root?_erase {t : IR} {p : Path} {T : IRType} : (∃ n, (t.erase.subtreeAt p).root? = some n ∧ n.type = T) ↔
    IR.type? (t.subtreeAt p) = some T := by
  rw [IR.erase, subtreeAt_map]
  cases t.subtreeAt p with
  | nil => simp [root?, IR.type?, map]
  | node n l r => simp [root?, IR.type?, map, IRNode.erase]

/-- An addition that comes to the new types makes its tree available. -/
theorem AdditionRun.available_of_reachesNew {s : Mutator} {steps : List Addition} (h : AdditionRun g s steps)
    {a : Addition} (ha : a ∈ steps) (hnew : a.ReachesNew) : Available g a.after a.tree := by
  obtain ⟨hafter,e,hbefore,hwalk⟩ := h.walks ha
  rw [available_iff hafter]
  intro n hn
  rw [hwalk.ne_nil_iff]
  by_cases hold : a.before.irLibrary n.type = []
  · obtain ⟨p,htype,hunmarked,hunrepeated⟩ := hnew n hn hold
    obtain ⟨m,hm,hmtype⟩ := root?_erase.mpr htype
    exact (libraryWalk_collects n.type).run libraryWalk_marksOwn hm hmtype ((hbefore.unmarked_iff ..).mpr hunmarked)
      ((unrepeated_erase_iff ..).mpr hunrepeated)
  · apply (libraryWalk_collects n.type).keeps
    rwa [← hbefore.ne_nil_iff]

/-- Where nothing has to go and no node is like another, it comes to them if it
makes its tree available. -/
theorem AdditionRun.reachesNew_of_available {s : Mutator} {steps : List Addition} (h : AdditionRun g s steps)
    {a : Addition} (ha : a ∈ steps) (hfits : a.Fits) (hdistinct : a.Distinct) (havailable : Available g a.after a.tree) :
    a.ReachesNew := by
  obtain ⟨hafter,e,hbefore,hwalk⟩ := h.walks ha
  have hroom : HasRoom e (a.tree.erase.values ++ []) := by
    intro T
    rw [List.append_nil, ← hbefore.length, IR.erase, values_map, List.countP_map]
    exact hfits T
  intro n hn hold
  have hentry := (available_iff hafter).mp havailable n hn
  rw [hwalk.ne_nil_iff] at hentry
  rcases (libraryWalk_collects n.type).of_run libraryWalk_keepsMarks hroom hentry with hentry | ⟨p,m,hm,hmtype,hunmarked⟩
  · rw [← hbefore.ne_nil_iff] at hentry
    exact absurd hold hentry
  · exact ⟨p,root?_erase.mp ⟨m,hm,hmtype⟩,(hbefore.unmarked_iff ..).mp hunmarked,fun q _ _ _ => hdistinct q⟩

/-- In every run whose additions come to the types that are new all trees ever
added are available; and where nothing has to go for a tree without repetitions,
no other addition makes its tree available. -/
theorem additions_available {s : Mutator} {steps : List Addition} (h : AdditionRun g s steps) :
    ((∀ a ∈ steps, a.ReachesNew) → ∀ a ∈ steps, Available g s a.tree) ∧
    ∀ a ∈ steps, a.Fits → a.Distinct → (Available g a.after a.tree ↔ a.ReachesNew) := by
  constructor
  · intro hsteps a ha
    have hafter := (available_iff (h.walks ha).1).mp (h.available_of_reachesNew ha (hsteps a ha))
    exact (available_iff h.libraryRun).mpr fun n hn => h.keeps ha (hafter n hn)
  · intro a ha hfits hdistinct
    exact ⟨h.reachesNew_of_available ha hfits hdistinct,h.available_of_reachesNew ha⟩

/-- A program that the translator accepts can be added. -/
theorem AdditionRun.extend {s : Mutator} {steps : List Addition} (h : AdditionRun g s steps) {t : ParseTree} {ir : IR}
    {id' : StatementID} (ht : translateNode g.scopeId t s.idCounter = .ok (some ir,id')) :
    ∃ root s₁ s₂ s' id, translateToIR g t s = .ok (root,s₁) ∧ extractStructureAt g root s₁ = .ok ((),s₂) ∧
      s₂.lists = s.lists ∧ saveIRRecursive root s₂ = .ok ((),s') ∧
      AdditionRun g s' (⟨s₂,root,(extractStructure g.scopeId ir id).1,s'⟩ :: steps) := by
  obtain ⟨lib,hinv,-⟩ := h.libraryRun.inv
  obtain ⟨root,s₁,s₂,w,htranslate,hextract,hlists,hinv₂,hptr,hne,hholds,hvals⟩ := meets_extracted hinv ht
  obtain ⟨⟨⟩,s',hsave,-⟩ := meets_saveIRRecursive hinv₂ hholds hne
  have hroot : root ≠ none := by
    rw [← hptr, Ne, ptr_eq_none]
    exact hne
  rw [hptr] at hsave
  exact ⟨root,s₁,s₂,s',s₁.idCounter,htranslate,hextract,hlists,hsave,
    .add h htranslate hroot hextract ⟨w,hptr,hholds,hvals⟩ hsave⟩

end

def shortProgram : ParseTree := .rule { ruleIndex := 0 } [.terminal ['x']]

def longProgram : ParseTree := .rule { ruleIndex := 0 } [.rule { ruleIndex := 1 } [.terminal ['x']]]

def innerProgram : ParseTree := .rule { ruleIndex := 0 } [.terminal ['y'],.rule { ruleIndex := 1 } [.terminal ['x']]]

def addProgram (t : ParseTree) (s : Mutator) : Except Fault (Mutator × Mutator) := do
  let (root, s₁) ← translateToIR zeroed t s
  let (_, s₂) ← extractStructureAt zeroed root s₁
  let (_, s') ← saveIRRecursive root s₂
  return (s₂,s')

def bothRun (t t' : ParseTree) : Except Fault (Mutator × Mutator) := do
  let (_, s) ← addProgram t (Mutator.start Heap.empty (Stream'.const 0))
  addProgram t' s

theorem AdditionRun.extend_zeroed {s : Mutator} {steps : List Addition} (h : AdditionRun zeroed s steps) {t : ParseTree}
    {ir : IR} {id' : StatementID} (ht : translateNode zeroed.scopeId t s.idCounter = .ok (some ir,id')) :
    ∃ root s₂ s' id, addProgram t s = .ok (s₂,s') ∧ s₂.lists = s.lists ∧
      AdditionRun zeroed s' (⟨s₂,root,(extractStructure zeroed.scopeId ir id).1,s'⟩ :: steps) := by
  obtain ⟨root,s₁,s₂,s',id,htranslate,hextract,hlists,hsave,hrun⟩ := h.extend ht
  refine ⟨root,s₂,s',id,?_,hlists,hrun⟩
  simp only [addProgram, htranslate, hextract, hsave, bind, Except.bind]
  rfl

/-- A tree whose types are those of its root and the children of its root. -/
theorem Addition.reachesNew_of_shallow {a : Addition}
    (hroot : ∀ k, libraryKey a.tree = some k → k.2 ∉ a.before.irLibraryHash k.1)
    (hnodes : ∀ n ∈ a.tree.values, a.tree.type? = some n.type ∨ ∃ sd, IR.type? (a.tree.child sd) = some n.type) :
    a.ReachesNew := by
  intro n hn _
  rcases hnodes n hn with htype | ⟨sd,htype⟩
  · exact ⟨[],htype,unmarked_root,unrepeated_root⟩
  · exact ⟨[sd],htype,unmarked_side hroot,unrepeated_side⟩

/-- `y x` after `x`: its root is new, and so type 1 gets an entry. -/
theorem innerProgram_available : ∃ s a b, AdditionRun zeroed s [b,a] ∧ (∃ n ∈ b.tree.values, n.type = 1) ∧
    Available zeroed s a.tree ∧ Available zeroed s b.tree := by
  have hstart : AdditionRun zeroed (Mutator.start Heap.empty (Stream'.const 0)) [] := .start rfl rfl (.inl rfl)
  obtain ⟨ir,id',ht,hshort⟩ : ∃ ir id', translateNode zeroed.scopeId shortProgram 0 = .ok (some ir,id') ∧
      ∀ id, ∀ n ∈ BinaryTree.values (extractStructure zeroed.scopeId ir id).1,
        IR.type? (extractStructure zeroed.scopeId ir id).1 = some n.type :=
    ⟨_,_,rfl,fun _ n hn => by rw [List.mem_singleton.mp hn]; rfl⟩
  obtain ⟨root,s₁,s,id,hadd,hlists,hrun⟩ := hstart.extend_zeroed ht
  obtain ⟨ir₂,id₂',ht₂,hinner⟩ : ∃ ir id', translateNode zeroed.scopeId innerProgram s.idCounter = .ok (some ir,id') ∧
      ∀ id, ∃ n m, (extractStructure zeroed.scopeId ir id).1 = .node n (.node m .nil .nil) .nil ∧ n.type = 0 ∧ m.type = 1 ∧
        IR.render (.node n (.node m .nil .nil) .nil) = "y x ".toList :=
    ⟨_,_,rfl,fun _ => ⟨_,_,rfl,rfl,rfl,rfl⟩⟩
  obtain ⟨root₂,s₂,s',id₂,hadd₂,-,hrun₂⟩ := hrun.extend_zeroed ht₂
  obtain ⟨n,m,htree,hn,hm,htext⟩ := hinner id₂
  have hnew : (bothRun shortProgram innerProgram).map (fun r => decide (duckingHash "y x ".toList ∉ r.1.irLibraryHash 0)) = .ok true := by
    decide +kernel
  rw [bothRun, hadd] at hnew
  change (addProgram innerProgram s).map _ = _ at hnew
  rw [hadd₂] at hnew
  have hunknown : duckingHash "y x ".toList ∉ s₂.irLibraryHash 0 := of_decide_eq_true (Except.ok.inj hnew)
  refine ⟨s',_,_,hrun₂,⟨m,?_,hm⟩,?_⟩
  · rw [htree]
    exact List.mem_cons_of_mem _ List.mem_cons_self
  have hreaches := (additions_available hrun₂).1 ?_
  · exact ⟨hreaches _ (List.mem_cons_of_mem _ List.mem_cons_self),hreaches _ List.mem_cons_self⟩
  rw [List.forall_mem_cons, List.forall_mem_singleton]
  constructor
  · apply Addition.reachesNew_of_shallow
    · intro k hk
      simp only [htree, libraryKey, Option.some.injEq] at hk
      subst hk
      rwa [IR.hash, htext, hn]
    · intro x hx
      simp only [htree, values, List.append_nil, List.mem_cons, List.not_mem_nil, or_false] at hx ⊢
      rcases hx with rfl | rfl
      · exact .inl rfl
      · exact .inr ⟨.left,rfl⟩
  · apply Addition.reachesNew_of_shallow
    · intro k _
      have hempty : s₁.irLibraryHash = fun _ => ∅ := (Prod.mk.inj hlists).2
      rw [hempty]
      exact Finset.notMem_empty _
    · exact fun x hx => .inl (hshort id x hx)

/-- Type 1 never gets an entry: both programs read the same. -/
theorem bothRun_unavailable : ¬ ∀ (g : Garbage) (s : Mutator) (steps : List Addition), AdditionRun g s steps →
    ∀ a ∈ steps, Available g s a.tree := by
  intro hclaim
  have hstart : AdditionRun zeroed (Mutator.start Heap.empty (Stream'.const 0)) [] := .start rfl rfl (.inl rfl)
  obtain ⟨ir,id',ht⟩ : ∃ ir id', translateNode zeroed.scopeId shortProgram 0 = .ok (some ir,id') := ⟨_,_,rfl⟩
  obtain ⟨root,s₁,s,id,hadd,-,hrun⟩ := hstart.extend_zeroed ht
  obtain ⟨ir₂,id₂',ht₂,hlong⟩ : ∃ ir id', translateNode zeroed.scopeId longProgram s.idCounter = .ok (some ir,id') ∧
      ∀ id, ∃ n ∈ BinaryTree.values (extractStructure zeroed.scopeId ir id).1, n.type = 1 :=
    ⟨_,_,rfl,fun _ => ⟨_,List.mem_cons_of_mem _ List.mem_cons_self,rfl⟩⟩
  obtain ⟨root₂,s₂,s',id₂,hadd₂,-,hrun₂⟩ := hrun.extend_zeroed ht₂
  have hlists : (bothRun shortProgram longProgram).map (fun r => decide (r.2.irLibrary 1 = [])) = .ok true := by decide +kernel
  rw [bothRun, hadd] at hlists
  change (addProgram longProgram s).map _ = _ at hlists
  rw [hadd₂] at hlists
  have hempty : s'.irLibrary 1 = [] := of_decide_eq_true (Except.ok.inj hlists)
  obtain ⟨n,hn,htype⟩ := hlong id₂
  have havailable := (hclaim zeroed s' _ hrun₂ _ List.mem_cons_self n hn).1
  rw [htype] at havailable
  exact havailable hempty

end PolyGlot
