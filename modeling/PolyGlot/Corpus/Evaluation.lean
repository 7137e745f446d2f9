import PolyGlot.Fuzzer.Startup
import PolyGlot.Fuzzer.LibraryGrowth
import Mathlib.Data.List.AList

set_option autoImplicit false

/-! # The corpus evaluation

The tool that counts the node types of a corpus and lists the files without a
tree. What it reports is right for the fuzzer: a file on its list adds nothing to
the library, and a type that it misses has no entries after a start.
-/
namespace PolyGlot

open BinaryTree TreeHeap Prog

section
variable (ruleNames : List Str)

def getIRTypeStr (type : IRType) : Except Fault Str :=
  match ruleNames[type]? with
  | none => .error .assertion
  | some name => .ok name

end

abbrev Tool := Prog Fault StatementID

abbrev TypeCounts := AList fun _ : Str => ℕ

def IR.allNodes : IR → List IRNode
  | .nil => []
  | .node n l r => allNodes l ++ allNodes r ++ [n]

section
variable (ruleNames : List Str) (parse : Str → Option ParseTree) (uninit : StatementID → ScopeID) (content : Str → Str)

def translated (text : Str) : Tool (Option IR) :=
  match parse text with
  | none => return none
  | some t => fun id => translateNode uninit t id

def countNode (counts : TypeCounts) (n : IRNode) : Except Fault TypeCounts :=
  if n.type = kUnknown then .ok counts
  else match getIRTypeStr ruleNames n.type with
    | .error f => .error f
    | .ok name => .ok (counts.insert name ((counts.lookup name).getD 0 + 1))

def countFiles : List Str → TypeCounts → Tool TypeCounts
  | [], counts => return counts
  | file :: files, counts => do
    match ← translated parse uninit (content file) with
    | none => countFiles files counts
    | some ir => countFiles files (← liftM (ir.allNodes.foldlM (countNode ruleNames) counts))

def countTypesInCorpus (files : List Str) : Tool TypeCounts :=
  countFiles ruleNames parse uninit content files (ruleNames.foldl (fun m name => m.insert name 0) ∅)

def checkMissingTypesInCorpus (order : TypeCounts → List (Sigma fun _ : Str => ℕ)) (files : List Str) : Tool (List Str) := do
  let typeCount ← countTypesInCorpus ruleNames parse uninit content files
  return ((order typeCount).filter fun e => e.2 = 0).map Sigma.fst

def checkUnParsableFiles : List Str → Tool (List Str)
  | [] => return []
  | file :: files => do
    let ir ← translated parse uninit (content file)
    let unparsable ← checkUnParsableFiles files
    return if ir = none then file :: unparsable else unparsable

end

def typesIn (parse : Str → Option ParseTree) (text : Str) : List IRType :=
  match parse text with
  | none => []
  | some t => match translation t with
    | .ok (some ir) => ir.values.map IRNode.type
    | _ => []

def NoTree (parse : Str → Option ParseTree) (text : Str) : Prop := ∀ t, parse text = some t → translation t = .ok none

def occurrences (parse : Str → Option ParseTree) (texts : List Str) (T : IRType) : ℕ :=
  (texts.map fun text => (typesIn parse text).count T).sum

section
variable {ruleNames : List Str} {parse : Str → Option ParseTree} {uninit : StatementID → ScopeID} {content : Str → Str}
  {counts : TypeCounts} {id : StatementID}

theorem allNodes_perm (t : IR) : t.allNodes.Perm t.values := by
  induction t with
  | nil => exact .rfl
  | node n l r ihl ihr =>
    rw [IR.allNodes, values]
    exact List.perm_append_comm.trans ((ihl.append ihr).cons n)

theorem types_erase (t : IR) : (IR.erase t).values.map IRNode.type = t.values.map IRNode.type := by
  rw [IR.erase, values_map, List.map_map]
  rfl

theorem NoTree.typesIn {text : Str} (h : NoTree parse text) : typesIn parse text = [] := by
  unfold PolyGlot.typesIn
  cases ht : parse text with
  | none => rfl
  | some t =>
    dsimp only
    rw [h t ht]

/-- What the tool sees of a text. -/
theorem translated_attains (text : Str) : Attains (translated parse uninit text) id fun ir _ =>
    (ir = none ↔ NoTree parse text) ∧ ∀ root, ir = some root → typesIn parse text = root.values.map IRNode.type := by
  unfold translated NoTree typesIn
  cases parse text with
  | none => exact Attains.pure ⟨by simp,fun _ h => by cases h⟩
  | some t =>
    constructor
    intro ir id' hrun
    dsimp only at hrun ⊢
    have htranslation : translation t = .ok (ir.map IR.erase) := by
      rw [← withoutIds_translateNode uninit t id, hrun]
      rfl
    rw [htranslation]
    cases ir with
    | none => exact ⟨by simp [htranslation],fun _ h => by cases h⟩
    | some root =>
      refine ⟨by simp [htranslation],fun root' h => ?_⟩
      cases h
      exact types_erase root

structure Tallies (ruleNames : List Str) (k : IRType → ℕ) (counts : TypeCounts) : Prop where
  named : ∀ T name, ruleNames[T]? = some name → counts.lookup name = some (k T)
  others : ∀ name, name ∉ ruleNames → counts.lookup name = none

theorem tallies_zero (ruleNames : List Str) : Tallies ruleNames (fun _ => 0) (ruleNames.foldl (fun m name => m.insert name 0) ∅) := by
  have hfold : ∀ (names : List Str) (m : TypeCounts) (name : Str),
      (names.foldl (fun m name => m.insert name 0) m).lookup name = if name ∈ names then some 0 else m.lookup name := by
    intro names
    induction names with
    | nil => simp
    | cons first names ih =>
      intro m name
      rw [List.foldl_cons, ih]
      by_cases hname : name ∈ names
      · simp [hname]
      · by_cases hfirst : name = first
        · subst hfirst
          simp [hname]
        · simp [hname, hfirst, AList.lookup_insert_ne hfirst]
  refine ⟨fun T name hT => ?_,fun name hname => ?_⟩
  · rw [hfold, if_pos (List.mem_of_getElem? hT)]
  · rw [hfold, if_neg hname]
    rfl

/-- A node is counted under the name of its type. -/
theorem Tallies.countNode {counts' : TypeCounts} {k : IRType → ℕ} {n : IRNode} (hnodup : ruleNames.Nodup)
    (hlt : ruleNames.length ≤ kUnknown) (h : Tallies ruleNames k counts)
    (hcount : PolyGlot.countNode ruleNames counts n = .ok counts') :
    Tallies ruleNames (fun T => k T + [n.type].count T) counts' := by
  unfold PolyGlot.countNode at hcount
  split at hcount
  · rename_i hunknown
    cases hcount
    refine ⟨fun T name hT => ?_,h.others⟩
    have hother : n.type ≠ T := by
      rintro rfl
      have hrange := (List.getElem?_eq_some_iff.mp hT).1
      exact absurd (hunknown ▸ hrange) (not_lt.mpr hlt)
    rw [h.named T name hT, List.count_singleton, if_neg (by simpa using hother), Nat.add_zero]
  · unfold getIRTypeStr at hcount
    cases hname : ruleNames[n.type]? with
    | none =>
      simp [hname] at hcount
    | some name =>
      simp only [hname, Except.ok.injEq] at hcount
      subst hcount
      refine ⟨fun T name' hT => ?_,fun name' hname' => ?_⟩
      · by_cases hsame : n.type = T
        · subst hsame
          obtain rfl : name = name' := Option.some.inj (hname.symm.trans hT)
          rw [AList.lookup_insert, h.named _ _ hT, List.count_singleton_self, Option.getD_some]
        · have hdiffer : name' ≠ name := by
            rintro rfl
            have hi := (List.getElem?_eq_some_iff.mp hname).1
            exact hsame ((List.getElem?_inj hi hnodup).mp (hname.trans hT.symm))
          rw [AList.lookup_insert_ne hdiffer, h.named T name' hT, List.count_singleton, if_neg (by simpa using hsame),
            Nat.add_zero]
      · have hdiffer : name' ≠ name := by
          rintro rfl
          exact hname' (List.mem_of_getElem? hname)
        rw [AList.lookup_insert_ne hdiffer]
        exact h.others name' hname'

theorem Tallies.countNodes {counts' : TypeCounts} {k : IRType → ℕ} {ns : List IRNode} (hnodup : ruleNames.Nodup)
    (hlt : ruleNames.length ≤ kUnknown) (h : Tallies ruleNames k counts)
    (hcount : ns.foldlM (PolyGlot.countNode ruleNames) counts = .ok counts') :
    Tallies ruleNames (fun T => k T + (ns.map IRNode.type).count T) counts' := by
  induction ns generalizing counts k with
  | nil =>
    cases hcount
    exact h
  | cons n ns ih =>
    rw [List.foldlM_cons] at hcount
    obtain ⟨counts₁,hfirst,hrest⟩ := bind_ok hcount
    have hall := ih (h.countNode hnodup hlt hfirst) hrest
    have hsum : (fun T => k T + [n.type].count T + (ns.map IRNode.type).count T) =
        fun T => k T + ((n :: ns).map IRNode.type).count T := by
      funext T
      rw [List.map_cons, List.count_singleton, List.count_cons]
      ring
    rwa [hsum] at hall

theorem countFiles_attains {k : IRType → ℕ} (hnodup : ruleNames.Nodup) (hlt : ruleNames.length ≤ kUnknown)
    (h : Tallies ruleNames k counts) (files : List Str) :
    Attains (countFiles ruleNames parse uninit content files counts) id fun counts' _ =>
      Tallies ruleNames (fun T => k T + occurrences parse (files.map content) T) counts' := by
  induction files generalizing counts k id with
  | nil => exact Attains.pure h
  | cons file files ih =>
    have hcons : ∀ T, occurrences parse ((file :: files).map content) T =
        (typesIn parse (content file)).count T + occurrences parse (files.map content) T := by
      intro T
      simp [occurrences]
    rw [countFiles]
    apply (translated_attains (content file)).bind
    rintro ir id₁ ⟨hnone,hsome⟩
    cases ir with
    | none =>
      apply (ih h).mono
      intro counts' _ hall
      simp only [hcons, (hnone.mp rfl).typesIn, List.count_nil, Nat.zero_add]
      exact hall
    | some root =>
      apply (Attains.lift _).bind
      rintro counts₁ _ ⟨hcount,rfl⟩
      apply (ih (h.countNodes hnodup hlt hcount)).mono
      intro counts' _ hall
      have hperm : ∀ T, (root.allNodes.map IRNode.type).count T = (root.values.map IRNode.type).count T :=
        fun T => ((allNodes_perm root).map IRNode.type).count_eq T
      simp only [hcons, hsome root rfl, ← hperm, ← Nat.add_assoc]
      exact hall

theorem countTypes_tallies (hnodup : ruleNames.Nodup) (hlt : ruleNames.length ≤ kUnknown) (files : List Str) :
    Attains (countTypesInCorpus ruleNames parse uninit content files) id fun counts' _ =>
      Tallies ruleNames (occurrences parse (files.map content)) counts' := by
  apply (countFiles_attains hnodup hlt (tallies_zero ruleNames) files).mono
  intro counts' _ htallies
  simpa only [Nat.zero_add] using htallies

/-- The counts that the tool returns are those of the nodes of the trees in the
files, for the types that the grammar names and for nothing else. -/
theorem countTypesInCorpus_exact (hnodup : ruleNames.Nodup) (hlt : ruleNames.length ≤ kUnknown) {files : List Str}
    {id' : StatementID} (hrun : countTypesInCorpus ruleNames parse uninit content files id = .ok (counts,id')) :
    (∀ T name, ruleNames[T]? = some name → counts.lookup name = some (occurrences parse (files.map content) T)) ∧
      ∀ name, name ∉ ruleNames → counts.lookup name = none := by
  have htallies := (countTypes_tallies hnodup hlt files).of_run _ _ hrun
  exact ⟨htallies.named,htallies.others⟩

/-- The tool reports the types that the grammar names and that no tree has. -/
theorem mem_checkMissing_iff {order : TypeCounts → List (Sigma fun _ : Str => ℕ)} (horder : ∀ m, (order m).Perm m.entries)
    (hnodup : ruleNames.Nodup) (hlt : ruleNames.length ≤ kUnknown) {files missing : List Str} {id' : StatementID}
    (hrun : checkMissingTypesInCorpus ruleNames parse uninit content order files id = .ok (missing,id')) {T : IRType}
    {name : Str} (hT : ruleNames[T]? = some name) :
    name ∈ missing ↔ ∀ file ∈ files, T ∉ typesIn parse (content file) := by
  obtain ⟨counts,id₁,hcount,hreturn⟩ := of_bind hrun
  cases hreturn
  have hlookup := (countTypes_tallies hnodup hlt files).of_run _ _ hcount |>.named T name hT
  have hzero : occurrences parse (files.map content) T = 0 ↔ ∀ file ∈ files, T ∉ typesIn parse (content file) := by
    simp [occurrences, List.sum_eq_zero_iff, List.count_eq_zero]
  rw [← hzero]
  constructor
  · intro hmem
    obtain ⟨e,he,hname⟩ := List.mem_map.mp hmem
    obtain ⟨hentry,hnone⟩ := List.mem_filter.mp he
    subst hname
    have hfound := AList.mem_lookup_iff.mpr ((horder counts).mem_iff.mp hentry)
    rw [hlookup] at hfound
    rw [Option.mem_some_iff.mp hfound]
    exact of_decide_eq_true hnone
  · intro hnone
    rw [hnone] at hlookup
    have hentry := (horder counts).mem_iff.mpr (AList.mem_lookup_iff.mp hlookup)
    exact List.mem_map.mpr ⟨⟨name,0⟩,List.mem_filter.mpr ⟨hentry,by simp⟩,rfl⟩

end

section
variable {parse : Str → Option ParseTree} {T : IRType} {f f' : Machine}

theorem saveIR_other (t : IR) (s : Entries × Rand) (hT : T ∉ t.values.map IRNode.type) : (saveIR t s).1 T = s.1 T := by
  induction t generalizing s with
  | nil => rfl
  | node n l r ihl ihr =>
    simp only [values, List.map_cons, List.map_append, List.mem_cons, List.mem_append, not_or] at hT
    obtain ⟨hn,hl,hr⟩ := hT
    rw [saveIR]
    split
    · rfl
    · rw [ihr _ hr, ihl _ hl]
      exact Function.update_of_ne hn ..

theorem type_extractLeaf (n : IRNode) : (extractLeaf n).type = n.type := by
  simp only [extractLeaf, apply_ite IRNode.type, ite_self]

/-- A type of the extracted tree is one of the tree, or that of a placeholder. -/
theorem types_extractStructure (uninit : StatementID → ScopeID) (t : IR) (id : StatementID) :
    ∀ T ∈ (extractStructure uninit t id).1.values.map IRNode.type, T = kUnknown ∨ T ∈ t.values.map IRNode.type := by
  induction t generalizing id with
  | nil =>
    intro T hT
    cases hT
  | node n l r ihl ihr =>
    have hchild : ∀ c : IR, (∀ id, ∀ T ∈ (extractStructure uninit c id).1.values.map IRNode.type,
        T = kUnknown ∨ T ∈ c.values.map IRNode.type) → ∀ id, ∀ T ∈ (extractedChild uninit c id).1.values.map IRNode.type,
        T = kUnknown ∨ T ∈ c.values.map IRNode.type := by
      intro c hc id T hT
      unfold extractedChild at hT
      split at hT
      · exact .inl (by simpa [fixmeLeaf, IR.ofData, values] using hT)
      · exact hc id T hT
    intro T hT
    rw [extractStructure_node] at hT
    simp only [values, List.map_cons, List.map_append, List.mem_cons, List.mem_append] at hT ⊢
    rcases hT with hroot | hl | hr
    · refine .inr (.inl ?_)
      rw [hroot]
      simp only [apply_ite IRNode.type, type_extractLeaf, ite_self]
    · rcases hchild l ihl _ T hl with h | h
      · exact .inl h
      · exact .inr (.inr (.inl h))
    · rcases hchild r ihr _ T hr with h | h
      · exact .inl h
      · exact .inr (.inr (.inr h))

theorem types_extracted {t : IR} (h : T ∈ (extracted t).values.map IRNode.type) :
    T = kUnknown ∨ T ∈ t.values.map IRNode.type := by
  rw [extracted, types_erase] at h
  exact types_extractStructure _ t 0 T h

/-- A text without the type adds no entries of it. -/
theorem enterText_other (hne : T ≠ kUnknown) {text : Str} (h : T ∉ typesIn parse text) :
    Attains (enterText parse text) f fun _ f' => f'.library T = f.library T := by
  unfold enterText readText
  unfold typesIn at h
  cases ht : parse text with
  | none => exact Attains.pure rfl
  | some t =>
    rw [ht] at h
    apply (Attains.lift (translation t)).bind
    rintro ir _ ⟨hir,rfl⟩
    cases ir with
    | none => exact Attains.pure rfl
    | some root =>
      dsimp only at h
      rw [hir] at h
      refine (Meets.modify ?_).attains
      refine saveIR_other _ _ fun hmem => ?_
      rcases types_extracted hmem with hunknown | hmem
      · exact hne hunknown
      · exact h hmem

theorem enterTexts_other (hne : T ≠ kUnknown) {texts : List Str} (h : ∀ text ∈ texts, T ∉ typesIn parse text) :
    Attains (enterTexts parse texts) f fun _ f' => f'.library T = f.library T := by
  induction texts generalizing f with
  | nil => exact Attains.pure rfl
  | cons text texts ih =>
    obtain ⟨hfirst,hrest⟩ := List.forall_mem_cons.mp h
    unfold enterTexts
    rw [List.forM_eq_forM, List.forM_cons]
    apply (enterText_other hne hfirst).bind
    intro _ f₁ h₁
    exact (ih hrest).mono fun _ _ h₂ => h₂.trans h₁

/-- A text without a tree changes nothing. -/
theorem NoTree.enterText {text : Str} (h : NoTree parse text) (f : Machine) : PolyGlot.enterText parse text f = .ok ((),f) := by
  unfold PolyGlot.enterText readText
  cases ht : parse text with
  | none => rfl
  | some t =>
    dsimp only
    rw [h t ht]
    rfl

/-- Files without a tree can be left out. -/
theorem enterTexts_filter (content : Str → Str) (p : Str → Bool) {files : List Str}
    (h : ∀ file ∈ files, p file = false → NoTree parse (content file)) (f : Machine) :
    enterTexts parse ((files.filter p).map content) f = enterTexts parse (files.map content) f := by
  induction files generalizing f with
  | nil => rfl
  | cons file files ih =>
    obtain ⟨hfirst,hrest⟩ := List.forall_mem_cons.mp h
    have hcons : ∀ texts, enterTexts parse (content file :: texts) f =
        (enterText parse (content file) >>= fun _ => enterTexts parse texts) f := by
      intro texts
      unfold enterTexts
      rw [List.forM_eq_forM, List.forM_cons]
    cases hp : p file with
    | true =>
      rw [List.filter_cons_of_pos hp, List.map_cons, List.map_cons, hcons, hcons, run_bind, run_bind]
      cases enterText parse (content file) f with
      | error e => rfl
      | ok r => exact ih hrest r.2
    | false =>
      rw [List.filter_cons_of_neg (by simp [hp]), List.map_cons, hcons, run_bind, (hfirst hp).enterText f]
      exact ih hrest f

end

section
variable {lib : ConfigLibrary} {fs : FileSystem} {parse : Str → Option ParseTree} {g : Garbage} {uninit : StatementID → ScopeID}
  {id id' : StatementID} {document : YamlNode} {weak : Bool} {dir : Str} {types : List YamlNode}

/-- The directory of a start, looked at by the tool before it. A type that the
tool misses has no entries in the library. -/
theorem missingType_noEntries {ruleNames : List Str} {order : TypeCounts → List (Sigma fun _ : Str => ℕ)}
    (horder : ∀ m, (order m).Perm m.entries) (hnodup : ruleNames.Nodup) (hlt : ruleNames.length ≤ kUnknown)
    {missing : List Str} {heap : Heap IRNode} {rand : Rand} {config : Str} {settings settings' : Settings}
    {s : PolyGlotMutator} (hstart : createInstance lib fs parse g heap rand config settings = .ok (settings',s))
    (hrun : checkMissingTypesInCorpus ruleNames parse uninit fs.content order
      (getAllFilesInDir fs (cStr settings'.initDirPath)) id = .ok (missing,id')) {T : IRType} {name : Str}
    (hT : ruleNames[T]? = some name) (hmissing : name ∈ missing) : s.mutator.irLibrary T = [] := by
  obtain ⟨document,weak,dir,types,f,-,-,-,hmembers,henter,hfuzzes⟩ := createInstance_enters hstart
  have hrange : T < ruleNames.length := (List.getElem?_eq_some_iff.mp hT).1
  have hne : T ≠ kUnknown := (Nat.lt_of_lt_of_le hrange hlt).ne
  have hnever := (mem_checkMissing_iff horder hnodup hlt hrun hT).mp hmissing
  rw [← hmembers.initDirPath] at henter
  have htexts : ∀ text ∈ corpusTexts fs settings'.initDirPath, T ∉ typesIn parse text := by
    intro text htext
    obtain ⟨file,hfile,rfl⟩ := List.mem_map.mp htext
    exact hnever file hfile
  have hnone : f.library T = [] := (enterTexts_other hne htexts).of_run _ _ henter
  obtain ⟨shelves,hinv,-,-⟩ := hfuzzes.stores.run.inv
  have hstock : s.mutator.stock T = 0 := by rw [hinv.stock_eq, hfuzzes.stores.library _ hinv, hnone, List.length_nil]
  exact List.length_eq_zero_iff.mp hstock

theorem mem_checkUnParsable (content : Str → Str) (files : List Str) :
    Attains (checkUnParsableFiles parse uninit content files) id fun bad _ =>
      ∀ file, file ∈ bad ↔ file ∈ files ∧ NoTree parse (content file) := by
  induction files generalizing id with
  | nil => exact Attains.pure (by simp)
  | cons file files ih =>
    rw [checkUnParsableFiles]
    apply (translated_attains (content file)).bind
    rintro ir id₁ ⟨hnone,-⟩
    apply ih.bind
    intro bad _ hbad
    apply Attains.pure
    intro file'
    by_cases hir : ir = none
    · rw [if_pos hir, List.mem_cons, List.mem_cons, hbad]
      have htree := hnone.mp hir
      constructor
      · rintro (rfl | h)
        · exact ⟨.inl rfl,htree⟩
        · exact ⟨.inr h.1,h.2⟩
      · rintro ⟨rfl | h,h'⟩
        · exact .inl rfl
        · exact .inr ⟨h,h'⟩
    · rw [if_neg hir, List.mem_cons, hbad]
      constructor
      · exact fun h => ⟨.inr h.1,h.2⟩
      · rintro ⟨rfl | h,h'⟩
        · exact absurd (hnone.mpr h') hir
        · exact ⟨h,h'⟩

def FileSystem.remove (fs : FileSystem) (files : List Str) : FileSystem :=
  { fs with
    entries := fun dirName => (fs.entries dirName).map fun names =>
      names.filter fun name => !files.contains (absPath dirName ++ name) }

theorem getAllFilesInDir_remove (files : List Str) (dirName : Str) :
    getAllFilesInDir (fs.remove files) dirName = (getAllFilesInDir fs dirName).filter fun file => !files.contains file := by
  unfold getAllFilesInDir FileSystem.remove
  dsimp only
  split
  · cases fs.entries dirName with
    | none => rfl
    | some names =>
      rw [Option.map_some]
      dsimp only
      rw [List.filter_map, List.filter_filter, List.filter_filter]
      congr 1
      apply List.filter_congr
      intro name _
      exact Bool.and_comm _ _
  · rfl

/-- Without the files that the tool lists the host is told the same. -/
theorem session_without_unparsable {files bad : List Str}
    (hrun : checkUnParsableFiles parse uninit fs.content files id = .ok (bad,id')) {heap : Heap IRNode} {rand : Rand}
    {order : Configuration} {config : Str} (hdocument : fs.document config = .ok document)
    (haccepted : Accepted lib document weak dir types) (hloads : Loads lib document)
    (honly : syntaxOnlyOf lib document = some true) (calls : List Callback) (es : List (Handout.Event Str)) :
    Session lib (fs.remove bad) parse g heap rand order config calls es ↔
      Session lib fs parse g heap rand order config calls es := by
  have hbad := (mem_checkUnParsable fs.content files).of_run _ _ hrun
  have htexts : ∀ f, enterTexts parse (corpusTexts (fs.remove bad) dir) f = enterTexts parse (corpusTexts fs dir) f := by
    intro f
    unfold corpusTexts
    rw [getAllFilesInDir_remove]
    apply enterTexts_filter
    intro file _ hremoved
    have hmem : file ∈ bad := by simpa using hremoved
    exact ((hbad file).mp hmem).2
  have hremove : (fs.remove bad).document config = .ok document := hdocument
  constructor
  · intro h
    obtain ⟨f,f',henter,hperform⟩ := h.onMachine hremove haccepted honly
    rw [htexts] at henter
    exact session_of_machine hdocument haccepted hloads honly henter hperform
  · intro h
    obtain ⟨f,f',henter,hperform⟩ := h.onMachine hdocument haccepted honly
    rw [← htexts] at henter
    exact session_of_machine hremove haccepted hloads honly henter hperform

end

def parenNames : List Str := ["program".toList,"paren".toList,"atom".toList,"call".toList]

def notedFiles : FileSystem :=
  { parensFiles with
    entries := fun _ => some ["seed".toList,"..".toList,".".toList,"notes".toList]
    content := fun file => if file = "abs_path/to/mutation_corpus/seed".toList then "(x)".toList else "an atom".toList }

theorem parens_counts : ∃ counts id',
    countTypesInCorpus parenNames parseParens zeroed.scopeId parensFiles.content ["seed".toList] 0 = .ok (counts,id') ∧
      counts.lookup "paren".toList = some 1 ∧ counts.lookup "call".toList = some 0 := by
  have hcount : (countTypesInCorpus parenNames parseParens zeroed.scopeId parensFiles.content ["seed".toList] 0).isOk = true := by
    decide +kernel
  cases hrun : countTypesInCorpus parenNames parseParens zeroed.scopeId parensFiles.content ["seed".toList] 0 with
  | error f =>
    rw [hrun] at hcount
    cases hcount
  | ok r =>
    obtain ⟨counts,id'⟩ := r
    obtain ⟨hnamed,-⟩ := countTypesInCorpus_exact (by decide +kernel) (by decide +kernel) hrun
    exact ⟨counts,id',rfl,(hnamed 1 _ rfl).trans (by decide +kernel),(hnamed 3 _ rfl).trans (by decide +kernel)⟩

def notedDir : Str := "abs_path/to/mutation_corpus".toList

theorem noted_missing : ∃ settings s, createInstance plainLibrary notedFiles parseParens zeroed Heap.empty
    (Stream'.const 0) [] .fresh = .ok (settings,s) ∧ s.mutator.irLibrary 3 = [] := by
  have henter : (enterTexts parseParens (corpusTexts notedFiles notedDir) (.start (Stream'.const 0))).isOk = true := by
    decide +kernel
  cases hf : enterTexts parseParens (corpusTexts notedFiles notedDir) (.start (Stream'.const 0)) with
  | error f =>
    rw [hf] at henter
    cases henter
  | ok r =>
    obtain ⟨settings,s,hstart,hmembers,-⟩ : ∃ settings s, createInstance plainLibrary notedFiles parseParens zeroed
        Heap.empty (Stream'.const 0) [] .fresh = .ok (settings,s) ∧ LoadedFrom plainLibrary (.map syntaxOnlyEntries) true
        notedDir [.scalar "X".toList] .fresh settings ∧ Fuzzes zeroed s r.2 :=
      createInstance_of_enters rfl syntaxOnlyEntries_accepted syntaxOnlyEntries_loads hf .fresh
    have hmissing : (checkMissingTypesInCorpus parenNames parseParens zeroed.scopeId notedFiles.content AList.entries
        (getAllFilesInDir notedFiles (cStr notedDir)) 0).map Prod.fst = .ok ["call".toList] := by
      decide +kernel
    cases hrun : checkMissingTypesInCorpus parenNames parseParens zeroed.scopeId notedFiles.content AList.entries
        (getAllFilesInDir notedFiles (cStr notedDir)) 0 with
    | error f =>
      rw [hrun] at hmissing
      cases hmissing
    | ok r =>
      rw [hrun] at hmissing
      obtain ⟨missing,id'⟩ := r
      obtain rfl : missing = ["call".toList] := Except.ok.inj hmissing
      have hdir : settings.initDirPath = notedDir := hmembers.initDirPath
      rw [← hdir] at hrun
      exact ⟨settings,s,hstart,missingType_noEntries (fun _ => .rfl) (by decide +kernel) (by decide +kernel) hstart hrun
        (T := 3) rfl (List.mem_singleton.mpr rfl)⟩

theorem noted_removed : getAllFilesInDir (notedFiles.remove [notedDir ++ "/notes".toList]) notedDir =
    [notedDir ++ "/seed".toList] ∧ ∀ calls es,
      Session plainLibrary (notedFiles.remove [notedDir ++ "/notes".toList]) parseParens zeroed Heap.empty
        (Stream'.const 0) (intConfig true) [] calls es ↔
      Session plainLibrary notedFiles parseParens zeroed Heap.empty (Stream'.const 0) (intConfig true) [] calls es := by
  have hfound : (checkUnParsableFiles parseParens zeroed.scopeId notedFiles.content (getAllFilesInDir notedFiles notedDir)
      0).map Prod.fst = .ok [notedDir ++ "/notes".toList] := by
    decide +kernel
  refine ⟨by decide +kernel,fun calls es => ?_⟩
  cases hrun : checkUnParsableFiles parseParens zeroed.scopeId notedFiles.content (getAllFilesInDir notedFiles notedDir) 0 with
  | error f =>
    rw [hrun] at hfound
    cases hfound
  | ok r =>
    rw [hrun] at hfound
    obtain ⟨bad,id'⟩ := r
    obtain rfl : bad = [notedDir ++ "/notes".toList] := Except.ok.inj hfound
    exact session_without_unparsable hrun rfl syntaxOnlyEntries_accepted syntaxOnlyEntries_loads rfl calls es

end PolyGlot
