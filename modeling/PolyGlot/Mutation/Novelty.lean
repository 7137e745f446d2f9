import PolyGlot.Mutation.Language

set_option autoImplicit false

/-! # Mutants are new

`MutateIRs` keeps a set of hashes of the texts it has seen, the mutants' after
`ExtractStructure`. So the kept trees have pairwise different texts. The text of
the root is in the set under a hash of 64 bits, which an `unsigned` equals only
if its upper half is zero.
-/
namespace PolyGlot

open BinaryTree TreeHeap KeyedList

def extractedText (t : IR) : Str := (extractStructure (fun _ => 0) t 0).1.render

/-- The trees that the loops build, before those with a known hash are left out. -/
def builtTrees (lib : Entries) (root : IR) : List Path → Rand → List IR
  | [], _ => []
  | p :: ps, r =>
    if p = [] ∨ shouldMutate (root.subtreeAt p) = false then builtTrees lib root ps r
    else
      let vs := mutateIR lib (root.subtreeAt p) r
      vs.1.map (root.replaceAt p) ++ builtTrees lib root ps vs.2

/-- Every node prints something of its own: an operator, or its data. -/
def IR.Printed (t : IR) : Prop := ∀ n ∈ t.values, n.op ≠ none ∨ n.data ≠ .monostate

theorem mutantHash_def (t : IR) : mutantHash t = (duckingHash (extractedText t)).toUInt32.toUInt64 := rfl

theorem addVariants_eq {root : IR} {p : Path} {vs res : List IR} {seen : Finset UInt64} :
    addVariants root p vs (res,seen) = (res ++ (keepFirst mutantHash seen (vs.map (root.replaceAt p))).map deepCopy,
      seen ∪ ((vs.map (root.replaceAt p)).map mutantHash).toFinset) := by
  induction vs generalizing res seen with
  | nil => simp [addVariants, keepFirst]
  | cons v vs ih =>
    simp only [addVariants, List.map_cons, keepFirst, List.toFinset_cons]
    by_cases hv : mutantHash (root.replaceAt p v) ∈ seen
    · rw [if_pos hv, if_pos hv, ih, Finset.union_insert, Finset.insert_eq_self.mpr (Finset.mem_union_left _ hv)]
    · rw [if_neg hv, if_neg hv, ih, Finset.union_insert, Finset.insert_union, List.map_cons, List.append_assoc]
      rfl

theorem mutatePositions_eq {lib : Entries} {root : IR} {ps : List Path} {res : List IR} {seen : Finset UInt64} {r : Rand} :
    (mutatePositions lib root ps (res,seen) r).1.1 =
      res ++ (keepFirst mutantHash seen (builtTrees lib root ps r)).map deepCopy := by
  induction ps generalizing res seen r with
  | nil => simp [mutatePositions, builtTrees, keepFirst]
  | cons p ps ih =>
    rw [mutatePositions, builtTrees]
    split
    · exact ih
    · simp only [addVariants_eq, ih, keepFirst_append, List.map_append, List.append_assoc]

/-- The mutants are the built trees with a hash not seen before. -/
theorem mutateIRs_eq (lib : Entries) (root : IR) (r : Rand) : (mutateIRs lib root r).1 =
    (keepFirst mutantHash {root.hash} (builtTrees lib root root.postorder r)).map deepCopy := mutatePositions_eq

theorem printed_node {n : IRNode} {l r : IR} : IR.Printed (.node n l r) ↔
    (n.op ≠ none ∨ n.data ≠ .monostate) ∧ IR.Printed l ∧ IR.Printed r := by
  simp only [IR.Printed, values, List.mem_cons, List.mem_append, or_imp, forall_and, forall_eq]

theorem printed_nil : IR.Printed .nil := by simp [IR.Printed, values]

theorem translateNode_printed {uninit : StatementID → ScopeID} {t : ParseTree} {id id' : StatementID} {u : IR}
    (h : translateNode uninit t id = .ok (some u,id')) : u.Printed := by
  refine translateNode_induction printed_nil ?_ ?_ ?_ h
  · intro type data id hdata
    exact printed_node.mpr ⟨.inr hdata,printed_nil,printed_nil⟩
  · intro type op l r id hl hr
    exact printed_node.mpr ⟨.inl (by simp),hl,hr⟩
  · intro ctx u hu
    cases u with
    | nil =>
      simp only [decorate]
      split <;> exact printed_nil
    | node n l r =>
      have hn := printed_node.mp hu
      simp only [decorate]
      split <;> exact printed_node.mpr hn

theorem printed_deepCopy (t : IR) : (deepCopy t).Printed := by
  intro n hn
  rw [deepCopy, values_map] at hn
  obtain ⟨m,_,rfl⟩ := List.mem_map.mp hn
  exact .inl (by simp [IRNode.copied])

theorem IR.Printed.setChild {t u : IR} (ht : t.Printed) (hu : u.Printed) (s : Side) : IR.Printed (setChild s u t) := by
  cases t with
  | nil => exact printed_nil
  | node n l r =>
    obtain ⟨hn,hl,hr⟩ := printed_node.mp ht
    cases s with
    | left => exact printed_node.mpr ⟨hn,hu,hr⟩
    | right => exact printed_node.mpr ⟨hn,hl,hu⟩

theorem IR.Printed.replaceAt {t u : IR} (ht : t.Printed) (hu : u.Printed) (p : Path) : IR.Printed (t.replaceAt p u) := by
  induction p generalizing t with
  | nil => exact hu
  | cons s p ih =>
    have hchild : IR.Printed (t.child s) := fun n hn => ht n ((child_values_sublist t s).subset hn)
    exact ht.setChild (ih hchild) s

theorem printed_variant {lib : Entries} {cur v : IR} (h : Variant lib cur v) : v.Printed := by
  cases h with
  | swap hop hres hl hr =>
    exact printed_node.mpr ⟨.inl (by simp [IRNode.copied]),printed_deepCopy _,printed_deepCopy _⟩
  | child s hchild he => exact IR.Printed.setChild (printed_deepCopy _) (printed_deepCopy _) s
  | both hl hr he he' =>
    exact IR.Printed.setChild (IR.Printed.setChild (printed_deepCopy _) (printed_deepCopy _) _) (printed_deepCopy _) _

theorem printed_builtTrees {lib : Entries} {root t : IR} {ps : List Path} {r : Rand} (hroot : root.Printed)
    (h : t ∈ builtTrees lib root ps r) : t.Printed := by
  induction ps generalizing r with
  | nil => cases h
  | cons p ps ih =>
    rw [builtTrees] at h
    split at h
    · exact ih h
    · rcases List.mem_append.mp h with h | h
      · obtain ⟨v,hv,rfl⟩ := List.mem_map.mp h
        exact hroot.replaceAt (printed_variant (variant_mutateIR hv)) p
      · exact ih h

theorem printed_extractStructure {uninit : StatementID → ScopeID} {t : IR} (h : t.Printed) (id : StatementID) :
    IR.Printed (extractStructure uninit t id).1 := by
  induction t generalizing id with
  | nil => exact h
  | node n l r ihl ihr =>
    obtain ⟨hn,hl,hr⟩ := printed_node.mp h
    have hfixme : ∀ id, IR.Printed (fixmeLeaf uninit id) :=
      fun id => printed_node.mpr ⟨.inr (by simp),printed_nil,printed_nil⟩
    have hleaf : (extractLeaf n).op ≠ none ∨ (extractLeaf n).data ≠ .monostate := by
      unfold extractLeaf
      split
      · exact .inr (by simp)
      split
      · exact .inr (by simp)
      split
      · exact .inr (by simp)
      exact hn
    rw [extractStructure]
    refine printed_node.mpr ⟨?_,?_,?_⟩
    · split
      · exact hleaf
      · exact hn
    · split
      · exact hfixme _
      · exact ihl hl _
    · split
      · exact hfixme _
      · exact ihr hr _

/-- An absent operator that becomes an empty one prints blanks, unless the node
prints its data. -/
theorem toStringImpl_deepCopy {t : IR} (h : t.Printed) : (deepCopy t).toStringImpl = t.toStringImpl := by
  induction t with
  | nil => rfl
  | node n l r ihl ihr =>
    obtain ⟨hn,hl,hr⟩ := printed_node.mp h
    have hnil : ∀ u : IR, deepCopy u = .nil ↔ u = .nil := fun u => map_eq_nil
    simp only [deepCopy_node, IR.toStringImpl, ihl hl, ihr hr, hnil]
    by_cases hdata : n.data = .monostate
    · obtain ⟨op,hop⟩ := Option.ne_none_iff_exists'.mp (hn.resolve_right (not_not.mpr hdata))
      simp [IRNode.copied, IRNode.containData, hdata, hop, IR.opText]
    · simp [IRNode.copied, IRNode.containData, hdata]

/-- `ExtractStructure` looks at nothing that a copy changes. -/
theorem deepCopy_extractStructure (t : IR) (id id' : StatementID) :
    deepCopy (extractStructure (fun _ => 0) (deepCopy t) id).1 =
      deepCopy (extractStructure (fun _ => 0) t id').1 := by
  induction t generalizing id id' with
  | nil => rfl
  | node n l r ihl ihr =>
    have hdata : ∀ u : IR, IR.dataType? (deepCopy u) = u.dataType? := by
      intro u
      cases u <;> rfl
    have hnil : ∀ u : IR, deepCopy u = .nil ↔ u = .nil := fun u => map_eq_nil
    have hleaf : (extractLeaf n.copied).copied = (extractLeaf n).copied := by
      simp only [extractLeaf, apply_ite IRNode.copied]
      rfl
    have hchild : ∀ (u : IR), (∀ id id', deepCopy (extractStructure (fun _ => 0) (deepCopy u) id).1 =
        deepCopy (extractStructure (fun _ => 0) u id').1) → ∀ id id',
        deepCopy (if u.dataType? = some .kFixUnit then (fixmeLeaf (fun _ => 0) id, id + 1)
          else extractStructure (fun _ => 0) (deepCopy u) id).1 =
        deepCopy (if u.dataType? = some .kFixUnit then (fixmeLeaf (fun _ => 0) id', id' + 1)
          else extractStructure (fun _ => 0) u id').1 := by
      intro u ih id id'
      split
      · rfl
      · exact ih id id'
    simp only [deepCopy_node, extractStructure, hdata, hnil, apply_ite IRNode.copied, hleaf]
    rw [hchild l ihl id id', hchild r ihr _ _]
    rfl

theorem extractedText_deepCopy {t : IR} (h : t.Printed) : extractedText (deepCopy t) = extractedText t := by
  have hcopy : IR.Printed (extractStructure (fun _ => 0) (deepCopy t) 0).1 :=
    printed_extractStructure (printed_deepCopy t) 0
  have htree : IR.Printed (extractStructure (fun _ => 0) t 0).1 := printed_extractStructure h 0
  rw [extractedText, extractedText, IR.render, IR.render, ← toStringImpl_deepCopy hcopy,
    deepCopy_extractStructure t 0 0, toStringImpl_deepCopy htree]

theorem extractedText_congr {t t' : IR} (h : t.erase = t'.erase) : extractedText t = extractedText t' := by
  have heq : IR.erase (extractStructure (fun _ => 0) t 0).1 = IR.erase (extractStructure (fun _ => 0) t' 0).1 :=
    erase_extractStructure h 0 0
  rw [extractedText, extractedText, IR.render, IR.render, ← toStringImpl_erase, heq, toStringImpl_erase]

/-- The mutants have different texts, and none has the text of the root. -/
structure NewTexts (root : IR) (ms : List IR) : Prop where
  distinct : (ms.map extractedText).Nodup
  notRoot : ∀ m ∈ ms, extractedText m ≠ root.render

def MutantsNew (g : Garbage) (s : Mutator) (root : Ptr) (t : IR) : Prop :=
  ∃ ps s' ms, mutateRoot g root s = .ok (ps,s') ∧ List.Forall₂ (Leads s') ps ms ∧ NewTexts t ms

theorem newTexts_congr {root : IR} {ms ms' : List IR} (h : ms.map IR.erase = ms'.map IR.erase) :
    NewTexts root ms ↔ NewTexts root ms' := by
  have htexts : ∀ l : List IR, (l.map IR.erase).map extractedText = l.map extractedText := by
    intro l
    rw [List.map_map]
    exact List.map_congr_left fun t _ => extractedText_congr (erase_erase t)
  have hsame : ms.map extractedText = ms'.map extractedText := by rw [← htexts, h, htexts]
  have hall : ∀ l : List IR, NewTexts root l ↔ (l.map extractedText).Nodup ∧ root.render ∉ l.map extractedText := by
    intro l
    constructor
    · intro ⟨hd,hn⟩
      exact ⟨hd,by simpa using hn⟩
    · intro ⟨hd,hn⟩
      exact ⟨hd,by simpa using hn⟩
  rw [hall, hall, hsame]

/-- The hash of a text is the hash of a mutant with that text only if its upper
half is zero. -/
theorem truncated_eq_iff (k : UInt64) : k.toUInt32.toUInt64 = k ↔ k.toNat < 2 ^ 32 := by
  rw [← UInt64.toNat_inj]
  simp only [UInt32.toNat_toUInt64, UInt64.toNat_toUInt32]
  omega

theorem newTexts_iff {lib : Entries} {root : IR} {r : Rand} (hroot : root.Printed) :
    NewTexts root (mutateIRs lib root r).1 ↔ root.hash.toNat < 2 ^ 32 ∨
      ∀ t, (builtTrees lib root root.postorder r).find? (fun u => mutantHash u = root.hash.toUInt32.toUInt64) = some t →
        extractedText t ≠ root.render := by
  have hhash : ∀ t, extractedText t = root.render → mutantHash t = root.hash.toUInt32.toUInt64 := by
    intro t ht
    rw [mutantHash_def, ht]
    rfl
  have hmem : ∀ t ∈ keepFirst mutantHash {root.hash} (builtTrees lib root root.postorder r), t.Printed := by
    intro t ht
    exact printed_builtTrees hroot (List.mem_of_find?_eq_some (mem_keepFirst.mp ht).2)
  have htexts : ((mutateIRs lib root r).1).map extractedText =
      (keepFirst mutantHash {root.hash} (builtTrees lib root root.postorder r)).map extractedText := by
    rw [mutateIRs_eq, List.map_map]
    exact List.map_congr_left fun t ht => extractedText_deepCopy (hmem t ht)
  have hdistinct : (((mutateIRs lib root r).1).map extractedText).Nodup := by
    rw [htexts]
    have hkeys : ((keepFirst mutantHash {root.hash} (builtTrees lib root root.postorder r)).map mutantHash).Nodup :=
      keepFirst_nodup _ _
    have hfactor : (mutantHash : IR → UInt64) = (fun s => (duckingHash s).toUInt32.toUInt64) ∘ extractedText := rfl
    rw [hfactor, ← List.map_map] at hkeys
    exact hkeys.of_map _
  constructor
  · intro hnew
    rw [or_iff_not_imp_left]
    intro hlarge t ht hroot
    have hkey := hhash t hroot
    have hkept : t ∈ keepFirst mutantHash {root.hash} (builtTrees lib root root.postorder r) := by
      rw [mem_keepFirst, Finset.mem_singleton, hkey]
      exact ⟨mt (truncated_eq_iff _).mp hlarge,ht⟩
    have htext : extractedText t ∈ ((mutateIRs lib root r).1).map extractedText := by
      rw [htexts]
      exact List.mem_map_of_mem hkept
    obtain ⟨m,hm,heq⟩ := List.mem_map.mp htext
    exact hnew.notRoot m hm (heq.trans hroot)
  · intro hcond
    refine ⟨hdistinct,fun m hm hroot => ?_⟩
    have htext : extractedText m ∈ ((mutateIRs lib root r).1).map extractedText := List.mem_map_of_mem hm
    rw [htexts] at htext
    obtain ⟨t,ht,heq⟩ := List.mem_map.mp htext
    obtain ⟨hunseen,hfirst⟩ := mem_keepFirst.mp ht
    have hkey := hhash t (heq.trans hroot)
    rw [hkey] at hunseen hfirst
    rcases hcond with hsmall | hcond
    · exact hunseen (Finset.mem_singleton.mpr ((truncated_eq_iff _).mpr hsmall))
    · exact hcond t hfirst (heq.trans hroot)

section
variable {g g₀ : Garbage}

/-- After every sequence of additions and for every stream of random values: the
mutants of a translated root are new if and only if the hash of the root's text
has an upper half of zero, or the first built tree with its lower half as hash
does not read as the root. -/
theorem mutants_new_iff {s : Mutator} (h : LibraryRun g₀ (fun _ => True) s) {entries : Entries}
    (hentries : ∀ T, List.Forall₂ (Leads s) (s.irLibrary T) (entries T)) {t : ParseTree}
    {root : BinaryTree (ℕ × IRNode)} {id id' : StatementID}
    (htranslate : translateNode g.scopeId t id = .ok (some (vals root),id')) (hroot : Holds s.heap root)
    (hnodup : (addrs root).Nodup) (rand : Rand) :
    MutantsNew g { s with rand := rand } (ptr root) (vals root) ↔
      (IR.hash (vals root)).toNat < 2 ^ 32 ∨ ∀ u, (builtTrees entries (vals root) (vals root).postorder rand).find?
        (fun u => mutantHash u = (IR.hash (vals root)).toUInt32.toUInt64) = some u →
          extractedText u ≠ IR.render (vals root) := by
  obtain ⟨lib,hinv,-,hempty⟩ := h.inv
  have hready : Ready s.heap.next lib { s with rand := rand } := (hinv.ready hempty).withRand rand
  have hne : root ≠ .nil := fun hnil => translateNode_ne_nil htranslate (vals_eq_nil.mpr hnil)
  obtain ⟨ps,s',hrun,ms,hms⟩ := meets_mutateRoot (g := g) hready hroot hnodup hne
  have hvals : (ms.map vals).map IR.erase = ((mutateIRs entries (vals root) rand).1).map IR.erase := by
    rw [← hinv.values_eq hentries]
    have hms' := hms.vals
    rw [← hms', List.map_map, List.map_map]
    exact List.map_congr_left fun m _ => (erase_erase _).symm
  have hleads : List.Forall₂ (Leads s') ps (ms.map vals) := by
    rw [hms.ptrs, List.forall₂_map_left_iff, List.forall₂_map_right_iff, List.forall₂_same]
    exact fun m hm => ⟨m,rfl,hms.holds m hm,rfl⟩
  have hunique : Relator.RightUnique (Leads s') := fun _ _ _ => leads_unique
  rw [← newTexts_iff (translateNode_printed htranslate), ← newTexts_congr hvals]
  constructor
  · rintro ⟨ps',s'',ms',hrun',hleads',hnew⟩
    rw [hrun] at hrun'
    cases hrun'
    rwa [List.right_unique_forall₂' hunique hleads hleads']
  · intro hnew
    exact ⟨ps,s',ms.map vals,hrun,hleads,hnew⟩

end

/-- From an empty library no mutant of `(x)` reads as `(x)`. -/
theorem parens_new : ∃ (s : Mutator) (root : BinaryTree (ℕ × IRNode)),
    translateToIR zeroed parenProgram (Mutator.start Heap.empty (Stream'.const 0)) = .ok (ptr root,s) ∧
    MutantsNew zeroed { s with rand := Stream'.const 0 } (ptr root) (vals root) := by
  have hstart : LibraryRun zeroed (fun _ => True) (Mutator.start Heap.empty (Stream'.const 0)) := Mutator.start_run ..
  obtain ⟨ir,id',htranslate,hfirst⟩ : ∃ ir id', translateNode zeroed.scopeId parenProgram 0 = .ok (some ir,id') ∧
      (builtTrees (fun _ => []) ir ir.postorder (Stream'.const 0)).find?
        (fun u => mutantHash u = ir.hash.toUInt32.toUInt64) = none := ⟨_,_,rfl,by decide +kernel⟩
  obtain ⟨_,s,hrun,root,hnew,rfl,rfl,hlist,hhash,hempty,-⟩ := meets_translateToIR (g := zeroed)
    (s := Mutator.start Heap.empty (Stream'.const 0)) htranslate
  have hs : LibraryRun zeroed (fun _ => True) s := .elsewhere hstart hnew.ext hlist hhash (.inl hempty)
  have hentries : ∀ T, List.Forall₂ (Leads s) (s.irLibrary T) [] := by
    intro T
    rw [hlist]
    exact .nil
  refine ⟨s,root,hrun,(mutants_new_iff hs hentries htranslate hnew.holds hnew.nodup _).mpr (.inr ?_)⟩
  intro u hu
  rw [hfirst] at hu
  cases hu

def parensTwice : Except Fault (Bool × Bool) := do
  let (_, s) ← addToIRLibrary zeroed parenProgram (Mutator.start Heap.empty (Stream'.const 0))
  let (root, s₁) ← translateToIR zeroed parenProgram s
  let (ps, s₂) ← mutateRoot zeroed root s₁
  let (m, s₃) ← treeOf (ps.headD none) s₂
  let (t, _) ← treeOf root s₃
  return (root = none ∨ ps = [], extractedText m = t.render)

/-- The first mutant is the root again: its hash is no `unsigned`. -/
theorem parensTwice_repeats : ¬ ∀ (g : Garbage) (s s' : Mutator) (t : ParseTree) (root : Ptr) (ir : IR),
    LibraryRun g (fun _ => True) s → translateToIR g t s = .ok (root,s') → root ≠ none → Leads s' root ir →
      MutantsNew g s' root ir := by
  intro hclaim
  have hrun : parensTwice = .ok (false,true) := by decide +kernel
  obtain ⟨⟨⟨⟩,s⟩,hadd,hrun⟩ := Prog.bind_ok hrun
  obtain ⟨⟨root,s₁⟩,htranslate,hrun⟩ := Prog.bind_ok hrun
  obtain ⟨⟨ps,s₂⟩,hmutate,hrun⟩ := Prog.bind_ok hrun
  obtain ⟨⟨m,s₃⟩,hm,hrun⟩ := Prog.bind_ok hrun
  obtain ⟨⟨ir,s₄⟩,hir,hrun⟩ := Prog.bind_ok hrun
  simp only [pure, Except.pure, Except.ok.injEq, Prod.mk.injEq] at hrun
  obtain ⟨hsome,hsame⟩ := hrun
  obtain ⟨hroot,hps⟩ := not_or.mp (of_decide_eq_false hsome)
  have hlibrary : LibraryRun zeroed (fun _ => True) s := .add (Mutator.start_run ..) trivial hadd
  obtain ⟨lib,hinv,-,hempty⟩ := hlibrary.inv
  obtain ⟨ir₀,id',hnode⟩ : ∃ ir id', translateNode zeroed.scopeId parenProgram s.idCounter = .ok (some ir,id') := ⟨_,_,rfl⟩
  obtain ⟨_,s₁',hrun₁,u,hnew,rfl,rfl,hlist,hhash,hempty₁,-⟩ := meets_translateToIR (g := zeroed) (s := s) hnode
  rw [htranslate] at hrun₁
  cases hrun₁
  have hready := ((hinv.ready hempty).stepped hnew.ext hlist hhash hempty₁).ready
  have hune : u ≠ .nil := fun hnil => hroot (by rw [hnil]; rfl)
  obtain ⟨ps',s₂',hrun₂,ms,hms⟩ := meets_mutateRoot (g := zeroed) hready hnew.holds hnew.nodup hune
  rw [hmutate] at hrun₂
  cases hrun₂
  obtain ⟨ps'',s'',ms',hrun₂,hleads,htexts⟩ :=
    hclaim zeroed s s₁ parenProgram (ptr u) (vals u) hlibrary htranslate hroot ⟨u,rfl,hnew.holds,rfl⟩
  rw [hmutate] at hrun₂
  cases hrun₂
  obtain ⟨q,qs,rfl⟩ := List.exists_cons_of_ne_nil hps
  cases hleads with
  | cons hfirst hrest =>
    rename_i m' ms'
    obtain ⟨w,rfl,hholds,rfl⟩ := hfirst
    obtain ⟨heq,rfl⟩ : m = vals w ∧ s₂ = s₃ :=
      (meets_treeOf (Q := fun t s' => t = vals w ∧ s₂ = s') hholds ⟨rfl,rfl⟩).of_run hm
    have hkeep : Holds s₂.heap u := hnew.holds.keep hms.step.ext
    have hir' : ir = vals u := (meets_treeOf (Q := fun t _ => t = vals u) hkeep rfl).of_run hir
    rw [heq, hir'] at hsame
    exact htexts.notRoot _ List.mem_cons_self (of_decide_eq_true hsame)

end PolyGlot
