import PolyGlot.Config.Reload
import PolyGlot.Fuzzer.Fixing

set_option autoImplicit false

/-! # From the start of the process

`CreateInstance` loads the configuration and fills the library from the files of
a directory. A session is that and the callbacks of the host.
-/
namespace PolyGlot

open BinaryTree TreeHeap Prog

/-- What the process sees of the file system: what `YAML::LoadFile` makes of a
path, whether `lstat` says that it is a directory, what `readdir` lists of it
where it can be opened, and the bytes that a stream gives: every entry is taken to
be a file that can be read. -/
structure FileSystem where
  document : Str → Except ConfigFault YamlNode
  isDirectory : Str → Bool
  entries : Str → Option (List Str)
  content : Str → Str

def absPath (dirName : Str) : Str := if dirName.getLast? = some '/' then dirName else dirName ++ ['/']

def getAllFilesInDir (fs : FileSystem) (dirName : Str) : List Str :=
  if fs.isDirectory dirName then
    match fs.entries dirName with
    | none => []
    | some names => (names.filter fun name => name ≠ ".".toList ∧ name ≠ "..".toList).map (absPath dirName ++ ·)
  else []

/-- How `CreateInstance` ends early: the loading of the configuration does, the
assertion on what it returned fails, or an addition fails. -/
inductive StartFault
  | config (f : ConfigFault)
  | rejected
  | fault (f : Fault)

section
variable (lib : ConfigLibrary) (fs : FileSystem) (parse : Str → Option ParseTree) (g : Garbage)

def initializeMutator (settings : Settings) : Fuzz Unit := do
  assertThat (settings.isInit = true) .assertion
  (getAllFilesInDir fs (cStr settings.initDirPath)).forM fun f => onMutator (addTextToIRLibrary parse g (fs.content f))

def createInstance (heap : Heap IRNode) (rand : Rand) (config : Str) (settings : Settings) :
    Except StartFault (Settings × PolyGlotMutator) :=
  match Attempt.run (initConfiguration lib (fs.document config)) settings with
  | (.error f,_) => .error (.config f)
  | (.ok false,_) => .error .rejected
  | (.ok true,settings) =>
    match initializeMutator fs parse g settings ⟨Mutator.start heap rand,.initial,[],[]⟩ with
    | .error f => .error (.fault f)
    | .ok (_,s) => .ok (settings,s)

def Settings.configuration (s : Settings) (order : Configuration) : Configuration :=
  { order with isWeakType := s.isWeakType, basicTypeStr := s.basicTypes }

/-- The host starts the fuzzer and makes the callbacks, and is told `es`. -/
def Session (heap : Heap IRNode) (rand : Rand) (order : Configuration) (config : Str) (calls : List Callback)
    (es : List (Handout.Event Str)) : Prop :=
  ∃ settings s left s', createInstance lib fs parse g heap rand config .fresh = .ok (settings,s) ∧
    Campaign (settings.configuration order) settings.syntaxOnly parse g s calls es left s'

end

def corpusTexts (fs : FileSystem) (dir : Str) : List Str := (getAllFilesInDir fs (cStr dir)).map fs.content

def TextTranslates (parse : Str → Option ParseTree) (text : Str) : Prop :=
  ∀ t, parse text = some t → ∃ r, translation t = .ok r

section
variable {lib : ConfigLibrary} {fs : FileSystem} {parse : Str → Option ParseTree} {g : Garbage}

def enterTexts (parse : Str → Option ParseTree) (texts : List Str) : OnValues Unit := texts.forM (enterText parse)

theorem enterText_decides (text : Str) (f : Machine) :
    Decides (enterText parse text) f (TextTranslates parse text) fun _ _ => True := by
  unfold enterText readText TextTranslates
  cases ht : parse text with
  | none => exact (Decides.pure (Q := fun _ _ => True) trivial).iff (by simp)
  | some t =>
    have htree : Decides (liftM (translation t) >>= enterTree : OnValues Unit) f ((∃ r, translation t = .ok r) ∧ True)
        fun _ _ => True := by
      apply (Decides.lift (translation t) f).bind
      intro ir f' _ _
      apply Decides.of_meets
      cases ir with
      | none => exact Meets.pure trivial
      | some root => exact Meets.modify trivial
    exact htree.iff (by simp)

theorem enterTexts_decides (texts : List Str) (f : Machine) :
    Decides (enterTexts parse texts) f (∀ text ∈ texts, TextTranslates parse text) fun _ _ => True :=
  Decides.forM (P := fun _ _ => True) texts trivial fun _ text f' _ _ => enterText_decides text f'

theorem forM_map {α β σ : Type} {ε : Type} (h : α → β) (f : β → Prog ε σ Unit) (l : List α) :
    (l.map h).forM f = l.forM fun a => f (h a) := by
  simp

theorem initializeMutator_simulates {settings : Settings} (hinit : settings.isInit = true) {s : PolyGlotMutator} {f : Machine}
    (h : Fuzzes g s f) : Simulates (initializeMutator fs parse g settings) s
      (enterTexts parse (corpusTexts fs settings.initDirPath)) f fun _ s' _ f' => Fuzzes g s' f' := by
  have hassert : Meets (assertThat (settings.isInit = true) .assertion : Fuzz Unit) s fun _ s' => s' = s :=
    Meets.assertThat hinit rfl
  apply Simulates.after hassert
  rintro _ _ rfl
  unfold enterTexts corpusTexts
  rw [forM_map]
  apply Simulates.forM _ h
  intro file s f h
  refine (addTextToIRLibrary_simulates (fs.content file) h.stores).onPart.mono ?_
  rintro _ s' _ f' ⟨m',rfl,hstores,hsame⟩
  exact ⟨hstores,h.testCases.trans hsame.symm⟩

variable {settings settings' : Settings} {document : YamlNode} {weak : Bool} {dir : Str} {types : List YamlNode}

theorem initConfiguration_true {file : Except ConfigFault YamlNode} :
    Attempt.run (initConfiguration lib file) settings = (.ok true,settings') ↔
      ∃ document weak dir types, file = .ok document ∧ Accepted lib document weak dir types ∧
        loaded lib document weak dir types settings = (.ok true,settings') := by
  constructor
  · intro h
    cases file with
    | error f => cases f <;> cases h
    | ok document =>
      by_cases hvalid : configFileValidate lib (.ok document) = .ok true
      · obtain ⟨weak,dir,types,haccepted⟩ := configFileValidate_iff.mp hvalid
        rw [initConfiguration_run haccepted] at h
        exact ⟨document,weak,dir,types,rfl,haccepted,h⟩
      · rw [initConfiguration_document] at h
        split at h
        · cases h
        · cases h
        · rename_i htrue
          exact absurd htrue hvalid
  · rintro ⟨document,weak,dir,types,rfl,haccepted,h⟩
    rw [initConfiguration_run haccepted, h]

structure LoadedFrom (lib : ConfigLibrary) (document : YamlNode) (weak : Bool) (dir : Str) (types : List YamlNode)
    (before after : Settings) : Prop where
  isInit : after.isInit = true
  isWeakType : after.isWeakType = weak
  initDirPath : after.initDirPath = dir
  syntaxOnly : syntaxOnlyOf lib document = some after.syntaxOnly
  basicTypes : after.basicTypes = before.basicTypes ++ convertedTypes lib types

theorem loadedFrom_of_loaded (h : loaded lib document weak dir types settings = (.ok true,settings')) :
    LoadedFrom lib document weak dir types settings settings' := by
  unfold loaded at h
  dsimp only at h
  cases hbuiltin : document.lookup ConfigKey.builtinObjFile with
  | none =>
    rw [hbuiltin] at h
    cases h
  | some node =>
    simp only [hbuiltin] at h
    cases hpath : lib.asString node with
    | none =>
      rw [hpath] at h
      cases h
    | some path =>
      simp only [hpath] at h
      cases hflag : syntaxOnlyOf lib document with
      | none =>
        rw [hflag] at h
        cases h
      | some b =>
        simp only [hflag] at h
        split at h
        · cases h
          exact ⟨rfl,rfl,rfl,hflag,rfl⟩
        · cases h

/-- What a start returns: settings that a document gave, and a fuzzer that is in a
state of the machine. -/
theorem createInstance_ok_iff {heap : Heap IRNode} {rand : Rand} {config : Str} {s : PolyGlotMutator} :
    createInstance lib fs parse g heap rand config settings = .ok (settings',s) ↔
      Attempt.run (initConfiguration lib (fs.document config)) settings = (.ok true,settings') ∧
        initializeMutator fs parse g settings' ⟨Mutator.start heap rand,.initial,[],[]⟩ = .ok ((),s) := by
  unfold createInstance
  rcases Attempt.run (initConfiguration lib (fs.document config)) settings with ⟨f | b,t⟩
  · simp
  · cases b with
    | false => simp
    | true =>
      dsimp only
      cases hrun : initializeMutator fs parse g t ⟨Mutator.start heap rand,.initial,[],[]⟩ with
      | error f =>
        constructor
        · intro h
          cases h
        · rintro ⟨heq,h⟩
          cases heq
          rw [hrun] at h
          cases h
      | ok r =>
        constructor
        · intro h
          cases h
          exact ⟨rfl,hrun⟩
        · rintro ⟨heq,h⟩
          cases heq
          rw [hrun] at h
          cases h
          rfl

theorem start_fuzzes (heap : Heap IRNode) (rand : Rand) :
    Fuzzes g ⟨Mutator.start heap rand,.initial,[],[]⟩ ⟨fun _ => [],rand,[]⟩ := fuzzes_start rfl rfl (.inl rfl)

abbrev Machine.start (rand : Rand) : Machine := ⟨fun _ => [],rand,[]⟩

/-- A start that returns has entered the texts of the directory of a document. -/
theorem createInstance_enters {heap : Heap IRNode} {rand : Rand} {config : Str} {s : PolyGlotMutator}
    (h : createInstance lib fs parse g heap rand config settings = .ok (settings',s)) : ∃ document weak dir types f,
      fs.document config = .ok document ∧ Accepted lib document weak dir types ∧ Loads lib document ∧
        LoadedFrom lib document weak dir types settings settings' ∧
        enterTexts parse (corpusTexts fs dir) (.start rand) = .ok ((),f) ∧ Fuzzes g s f := by
  obtain ⟨hconfig,hfill⟩ := createInstance_ok_iff.mp h
  obtain ⟨document,weak,dir,types,hdocument,haccepted,hloaded⟩ := initConfiguration_true.mp hconfig
  have hmembers := loadedFrom_of_loaded hloaded
  have hloads := (haccepted.loaded_true_iff settings).mp (by rw [hloaded])
  obtain ⟨_,f,hf,hfuzzes⟩ := (initializeMutator_simulates hmembers.isInit (start_fuzzes heap rand)).returns _ _ hfill
  rw [hmembers.initDirPath] at hf
  exact ⟨document,weak,dir,types,f,hdocument,haccepted,hloads,hmembers,hf,hfuzzes⟩

/-- Where the machine enters the texts, the fuzzer starts. -/
theorem createInstance_of_enters {heap : Heap IRNode} {rand : Rand} {config : Str} {f : Machine}
    (hdocument : fs.document config = .ok document) (haccepted : Accepted lib document weak dir types)
    (hloads : Loads lib document) (henter : enterTexts parse (corpusTexts fs dir) (.start rand) = .ok ((),f))
    (settings : Settings) : ∃ settings' s, createInstance lib fs parse g heap rand config settings = .ok (settings',s) ∧
      LoadedFrom lib document weak dir types settings settings' ∧ Fuzzes g s f := by
  obtain ⟨settings',hloaded⟩ : ∃ t, loaded lib document weak dir types settings = (.ok true,t) :=
    ⟨_,Prod.ext ((haccepted.loaded_true_iff settings).mpr hloads) rfl⟩
  have hmembers := loadedFrom_of_loaded hloaded
  have hconfig := initConfiguration_true.mpr ⟨document,weak,dir,types,hdocument,haccepted,hloaded⟩
  rw [← hmembers.initDirPath] at henter
  obtain ⟨_,s,hfill,hfuzzes⟩ := (initializeMutator_simulates hmembers.isInit (start_fuzzes heap rand)).of_run henter
  exact ⟨settings',s,createInstance_ok_iff.mpr ⟨hconfig,hfill⟩,hmembers,hfuzzes⟩

/-- The fuzzer starts exactly when the validator accepts the document, the loader
finds what it needs in it, and every text of the directory that has a tree has
one that the translator accepts. -/
theorem createInstance_returns_iff (heap : Heap IRNode) (rand : Rand) (config : Str) (settings : Settings) :
    (∃ r, createInstance lib fs parse g heap rand config settings = .ok r) ↔
      ∃ document weak dir types, fs.document config = .ok document ∧ Accepted lib document weak dir types ∧
        Loads lib document ∧ ∀ text ∈ corpusTexts fs dir, TextTranslates parse text := by
  constructor
  · rintro ⟨⟨settings',s⟩,h⟩
    obtain ⟨document,weak,dir,types,f,hdocument,haccepted,hloads,-,henter,-⟩ := createInstance_enters h
    exact ⟨document,weak,dir,types,hdocument,haccepted,hloads,(enterTexts_decides _ _).isOk_iff.mp ⟨_,henter⟩⟩
  · rintro ⟨document,weak,dir,types,hdocument,haccepted,hloads,htexts⟩
    obtain ⟨⟨⟨⟩,f⟩,henter⟩ := (enterTexts_decides (corpusTexts fs dir) (.start rand)).isOk_iff.mpr htexts
    obtain ⟨settings',s,h,-⟩ := createInstance_of_enters (g := g) hdocument haccepted hloads henter settings
    exact ⟨_,h⟩

section
variable {heap : Heap IRNode} {rand : Rand} {order : Configuration} {config : Str}

theorem Session.onMachine {calls : List Callback} {es : List (Handout.Event Str)}
    (hdocument : fs.document config = .ok document) (haccepted : Accepted lib document weak dir types)
    (honly : syntaxOnlyOf lib document = some true) (h : Session lib fs parse g heap rand order config calls es) :
    ∃ f f', enterTexts parse (corpusTexts fs dir) (.start rand) = .ok ((),f) ∧ performAll parse calls f = .ok (es,f') := by
  obtain ⟨settings,s,left,s',hstart,hc⟩ := h
  obtain ⟨document',weak',dir',types',f,hdocument',haccepted',-,hmembers,henter,hfuzzes⟩ := createInstance_enters hstart
  obtain rfl : document = document' := Except.ok.inj (hdocument.symm.trans hdocument')
  obtain rfl : dir = dir' := by
    have heq := haccepted.initFileDir.symm.trans haccepted'.initFileDir
    cases heq
    rfl
  have hmode : settings.syntaxOnly = true := Option.some.inj (hmembers.syntaxOnly.symm.trans honly)
  rw [hmode] at hc
  obtain ⟨f',hrun,-⟩ := (campaign_simulates hfuzzes calls es).1 left s' hc
  exact ⟨f,f',henter,hrun⟩

theorem session_of_machine {calls : List Callback} {es : List (Handout.Event Str)} {f f' : Machine}
    (hdocument : fs.document config = .ok document) (haccepted : Accepted lib document weak dir types)
    (hloads : Loads lib document) (honly : syntaxOnlyOf lib document = some true)
    (henter : enterTexts parse (corpusTexts fs dir) (.start rand) = .ok ((),f))
    (hrun : performAll parse calls f = .ok (es,f')) : Session lib fs parse g heap rand order config calls es := by
  obtain ⟨settings,s,hstart,hmembers,hfuzzes⟩ := createInstance_of_enters hdocument haccepted hloads henter .fresh
  have hmode : settings.syntaxOnly = true := Option.some.inj (hmembers.syntaxOnly.symm.trans honly)
  obtain ⟨left,s',hc,-⟩ := (campaign_simulates hfuzzes calls es).2 f' hrun
  rw [← hmode] at hc
  exact ⟨settings,s,left,s',hstart,hc⟩

/-- A session in the syntax-only mode is a run of the machine that first enters
the texts of the directory, in the order in which it lists them. -/
theorem session_iff_machine (hdocument : fs.document config = .ok document)
    (haccepted : Accepted lib document weak dir types) (hloads : Loads lib document)
    (honly : syntaxOnlyOf lib document = some true) (calls : List Callback) (es : List (Handout.Event Str)) :
    Session lib fs parse g heap rand order config calls es ↔
      ∃ f f', enterTexts parse (corpusTexts fs dir) (.start rand) = .ok ((),f) ∧ performAll parse calls f = .ok (es,f') := by
  constructor
  · intro h
    exact h.onMachine hdocument haccepted honly
  · rintro ⟨f,f',henter,hrun⟩
    exact session_of_machine hdocument haccepted hloads honly henter hrun

end

end

def syntaxOnlyEntries : List (YamlNode × YamlNode) :=
  (.scalar ConfigKey.syntaxOnly, .scalar "true".toList) :: builtinEntry :: readmeEntries

def parensFiles : FileSystem where
  document := fun _ => .ok (.map syntaxOnlyEntries)
  isDirectory := fun dirName => dirName = "abs_path/to/mutation_corpus".toList
  entries := fun _ => some [".".toList,"..".toList,"seed".toList]
  content := fun _ => "(x)".toList

theorem syntaxOnlyEntries_accepted : Accepted plainLibrary (.map syntaxOnlyEntries) true
    "abs_path/to/mutation_corpus".toList [.scalar "X".toList] := ⟨fun _ => rfl,rfl,rfl,rfl,rfl⟩

theorem syntaxOnlyEntries_loads : Loads plainLibrary (.map syntaxOnlyEntries) := by
  refine ⟨⟨_,_,rfl,rfl⟩,?_,?_⟩
  · intro node hnode
    cases hnode
    exact ⟨true,rfl⟩
  · intro types htypes type htype
    cases htypes
    obtain rfl := List.mem_singleton.mp htype
    exact ⟨_,rfl⟩

theorem parensFiles_session : corpusTexts parensFiles "abs_path/to/mutation_corpus".toList = ["(x)".toList] ∧
    ∀ calls es, Session plainLibrary parensFiles parseParens zeroed Heap.empty (Stream'.const 0) (intConfig true) [] calls es ↔
      ∃ f f', enterTexts parseParens ["(x)".toList] (.start (Stream'.const 0)) = .ok ((),f) ∧
        performAll parseParens calls f = .ok (es,f') := by
  have htexts : corpusTexts parensFiles "abs_path/to/mutation_corpus".toList = ["(x)".toList] := by decide +kernel
  refine ⟨htexts,fun calls es => ?_⟩
  rw [← htexts]
  exact session_iff_machine rfl syntaxOnlyEntries_accepted syntaxOnlyEntries_loads rfl calls es

end PolyGlot
