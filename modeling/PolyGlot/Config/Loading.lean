import PolyGlot.IR.Text
import PolyGlot.Support.Attempt

set_option autoImplicit false

/-! # The configuration file

`Configuration::Init` reads the document that `ConfigFileValidate` has checked, with
checks of its own: a key that it asks for, a conversion that may throw.
-/
namespace PolyGlot

open Attempt

/-- A node of a document, with its aliases written out. -/
inductive YamlNode
  | null
  | scalar (text : Str)
  | sequence (items : List YamlNode)
  | map (entries : List (YamlNode × YamlNode))

/-- `YAML::BadFile`, any other exception, and an assertion that ends the process. -/
inductive ConfigFault
  | badFile
  | exception
  | assertion
  deriving DecidableEq, Repr

/-- What is left to yaml-cpp and the file system: the conversions of a node, which
throw where there is no value, and `std::filesystem::exists`, which may throw too. -/
structure ConfigLibrary where
  asString : YamlNode → Option Str
  asBool : YamlNode → Option Bool
  pathExists : Str → Option Bool
  asString_scalar : ∀ text, asString (.scalar text) = some text
  asBool_true : asBool (.scalar "true".toList) = some true
  asBool_false : asBool (.scalar "false".toList) = some false

namespace YamlNode

def isScalar : YamlNode → Bool
  | .scalar _ => true
  | _ => false

def isSequence : YamlNode → Bool
  | .sequence _ => true
  | _ => false

def hasText (key : Str) : YamlNode → Bool
  | .scalar text => text = key
  | _ => false

/-- `node[key]` for a name: nothing where the key is not defined. A sequence has
numbers as keys only, and a scalar throws. -/
def subscript (key : Str) : YamlNode → Except ConfigFault (Option YamlNode)
  | .scalar _ => .error .exception
  | .map entries => .ok ((entries.find? fun e => e.1.hasText key).map Prod.snd)
  | _ => .ok none

def lookup (key : Str) : YamlNode → Option YamlNode
  | .map entries => (entries.find? fun e => e.1.hasText key).map Prod.snd
  | _ => none

def items : YamlNode → List YamlNode
  | .sequence items => items
  | _ => []

end YamlNode

def isNodeBool (node : YamlNode) : Bool := node.hasText "true".toList || node.hasText "false".toList

def convertNode {α : Type} (convert : YamlNode → Option α) (node : Option YamlNode) : Except ConfigFault α :=
  match node.bind convert with
  | some a => .ok a
  | none => .error .exception

namespace ConfigKey

def isWeakType : Str := "IsWeakType".toList
def initFileDir : Str := "InitFileDir".toList
def builtinObjFile : Str := "BuiltinObjFile".toList
def syntaxOnly : Str := "SyntaxOnly".toList
def basicTypes : Str := "BasicTypes".toList

end ConfigKey

structure Settings where
  isInit : Bool
  syntaxOnly : Bool
  isWeakType : Bool
  initDirPath : Str
  builtInObjectFilePath : Str
  basicTypes : List Str

def Settings.fresh : Settings := ⟨false,false,false,[],[],[]⟩

section
variable (lib : ConfigLibrary)

/-- `ConfigFileValidate`, where `file` is what `YAML::LoadFile` makes of the path. -/
def configFileValidate (file : Except ConfigFault YamlNode) : Except ConfigFault Bool :=
  match file with
  | .error .badFile => .ok false
  | .error f => .error f
  | .ok config => do
    let isWeakType ← config.subscript ConfigKey.isWeakType
    if ¬ isWeakType.any isNodeBool then return false
    else
      let initFileDir ← config.subscript ConfigKey.initFileDir
      if ¬ initFileDir.any YamlNode.isScalar then return false
      else
        let path ← convertNode lib.asString initFileDir
        match lib.pathExists path with
        | none => .error .exception
        | some false => return false
        | some true =>
          let basicTypes ← config.subscript ConfigKey.basicTypes
          return basicTypes.any YamlNode.isSequence

abbrev Load := Attempt ConfigFault Settings

def setBuiltinObjFile (config : YamlNode) : Load Unit := do
  match ← liftM (config.subscript ConfigKey.builtinObjFile) with
  | some node =>
    let path ← liftM (convertNode lib.asString (some node))
    modify fun s => { s with builtInObjectFilePath := path }
  | none => throw .assertion

def setSyntaxOnly (config : YamlNode) : Load Unit := do
  match ← liftM (config.subscript ConfigKey.syntaxOnly) with
  | some node =>
    let syntaxOnly ← liftM (convertNode lib.asBool (some node))
    modify fun s => { s with syntaxOnly := syntaxOnly }
  | none => modify fun s => { s with syntaxOnly := false }

def pushBasicTypes : List YamlNode → Load Unit
  | [] => pure ()
  | type :: types => do
    let name ← liftM (convertNode lib.asString (some type))
    modify fun s => { s with basicTypes := s.basicTypes ++ [name] }
    pushBasicTypes types

def loadConfig (config : YamlNode) : Load Bool := do
  let isWeakType ← liftM (config.subscript ConfigKey.isWeakType >>= convertNode lib.asBool)
  modify fun s => { s with isWeakType := isWeakType }
  let initDirPath ← liftM (config.subscript ConfigKey.initFileDir >>= convertNode lib.asString)
  modify fun s => { s with initDirPath := initDirPath }
  setBuiltinObjFile lib config
  setSyntaxOnly lib config
  let basicTypes ← liftM (config.subscript ConfigKey.basicTypes)
  pushBasicTypes lib ((basicTypes.map YamlNode.items).getD [])
  modify fun s => { s with isInit := true }
  return true

/-- `Configuration::Init`, which catches `YAML::BadFile` and nothing else. -/
def initConfiguration (file : Except ConfigFault YamlNode) : Load Bool :=
  tryCatch (do
    let config ← liftM file
    let valid ← liftM (configFileValidate lib (.ok config))
    if ¬ valid then return false
    else loadConfig lib config)
    fun f => if f = .badFile then return false else throw f

end

section
variable {lib : ConfigLibrary} {config : YamlNode}

def boolText (b : Bool) : Str := if b then "true".toList else "false".toList

structure Accepted (lib : ConfigLibrary) (config : YamlNode) (weak : Bool) (dir : Str) (types : List YamlNode) : Prop where
  mapping : ∀ key, config.subscript key = .ok (config.lookup key)
  isWeakType : config.lookup ConfigKey.isWeakType = some (.scalar (boolText weak))
  initFileDir : config.lookup ConfigKey.initFileDir = some (.scalar dir)
  pathExists : lib.pathExists dir = some true
  basicTypes : config.lookup ConfigKey.basicTypes = some (.sequence types)

theorem isNodeBool_iff {node : YamlNode} : isNodeBool node = true ↔ ∃ b, node = .scalar (boolText b) := by
  unfold isNodeBool YamlNode.hasText
  cases node with
  | scalar text => simp [boolText, or_comm]
  | null => simp
  | sequence items => simp
  | map entries => simp

theorem isScalar_iff {node : YamlNode} : node.isScalar = true ↔ ∃ text, node = .scalar text := by
  cases node <;> simp [YamlNode.isScalar]

theorem isSequence_iff {node : YamlNode} : node.isSequence = true ↔ ∃ items, node = .sequence items := by
  cases node <;> simp [YamlNode.isSequence]

theorem subscript_eq (config : YamlNode) : (∃ text, config = .scalar text) ∨
    ∀ key, config.subscript key = .ok (config.lookup key) := by
  cases config with
  | scalar text => exact .inl ⟨text,rfl⟩
  | null => exact .inr fun _ => rfl
  | sequence items => exact .inr fun _ => rfl
  | map entries => exact .inr fun _ => rfl

theorem configFileValidate_run (hmap : ∀ key, config.subscript key = .ok (config.lookup key)) :
    configFileValidate lib (.ok config) =
      if ¬ (config.lookup ConfigKey.isWeakType).any isNodeBool then .ok false
      else if ¬ (config.lookup ConfigKey.initFileDir).any YamlNode.isScalar then .ok false
      else match convertNode lib.asString (config.lookup ConfigKey.initFileDir) with
        | .error f => .error f
        | .ok path => match lib.pathExists path with
          | none => .error .exception
          | some false => .ok false
          | some true => .ok ((config.lookup ConfigKey.basicTypes).any YamlNode.isSequence) := by
  unfold configFileValidate
  simp only [hmap]
  by_cases hweak : (config.lookup ConfigKey.isWeakType).any isNodeBool = true
  · by_cases hdir : (config.lookup ConfigKey.initFileDir).any YamlNode.isScalar = true
    · cases hpath : convertNode lib.asString (config.lookup ConfigKey.initFileDir) with
      | error f => simp [hweak, hdir, hpath, bind, Except.bind]
      | ok path => simp [hweak, hdir, hpath, bind, Except.bind, pure, Except.pure]
    · simp [hweak, hdir, bind, Except.bind, pure, Except.pure]
  · simp [hweak, bind, Except.bind, pure, Except.pure]

theorem configFileValidate_scalar (text : Str) : configFileValidate lib (.ok (.scalar text)) = .error .exception := rfl

theorem any_iff {p : YamlNode → Bool} {node : Option YamlNode} :
    node.any p = true ↔ ∃ n, node = some n ∧ p n = true := by
  cases node <;> simp

theorem configFileValidate_iff : configFileValidate lib (.ok config) = .ok true ↔
    ∃ weak dir types, Accepted lib config weak dir types := by
  constructor
  · intro h
    rcases subscript_eq config with ⟨text,rfl⟩ | hmap
    · rw [configFileValidate_scalar] at h
      cases h
    · rw [configFileValidate_run hmap] at h
      by_cases hweak : (config.lookup ConfigKey.isWeakType).any isNodeBool = true
      · by_cases hdir : (config.lookup ConfigKey.initFileDir).any YamlNode.isScalar = true
        · rw [if_neg (not_not.mpr hweak), if_neg (not_not.mpr hdir)] at h
          obtain ⟨n,hn,hbool⟩ := any_iff.mp hweak
          obtain ⟨weak,rfl⟩ := isNodeBool_iff.mp hbool
          obtain ⟨m,hm,hscalar⟩ := any_iff.mp hdir
          obtain ⟨dir,rfl⟩ := isScalar_iff.mp hscalar
          rw [hm, convertNode, Option.bind_some, lib.asString_scalar] at h
          dsimp only at h
          cases hexists : lib.pathExists dir with
          | none => simp [hexists] at h
          | some there =>
            cases there with
            | false => simp [hexists] at h
            | true =>
              rw [hexists] at h
              obtain ⟨l,hl,hsequence⟩ := any_iff.mp (Except.ok.inj h)
              obtain ⟨types,rfl⟩ := isSequence_iff.mp hsequence
              exact ⟨weak,dir,types,hmap,hn,hm,hexists,hl⟩
        · simp [hweak, hdir] at h
      · simp [hweak] at h
  · rintro ⟨weak,dir,types,hmap,hweak,hdir,hexists,htypes⟩
    have hbool : isNodeBool (.scalar (boolText weak)) = true := isNodeBool_iff.mpr ⟨weak,rfl⟩
    rw [configFileValidate_run hmap, hweak, hdir, htypes, convertNode, Option.bind_some, lib.asString_scalar]
    simp [hbool, hexists, YamlNode.isScalar, YamlNode.isSequence]

/-- Nothing that the validator does after the file was read throws `BadFile`. -/
theorem configFileValidate_error {f : ConfigFault} (h : configFileValidate lib (.ok config) = .error f) :
    f = .exception := by
  rcases subscript_eq config with ⟨text,rfl⟩ | hmap
  · rw [configFileValidate_scalar] at h
    cases h
    rfl
  · rw [configFileValidate_run hmap] at h
    split at h
    · cases h
    · split at h
      · cases h
      · unfold convertNode at h
        cases hpath : (config.lookup ConfigKey.initFileDir).bind lib.asString with
        | none =>
          rw [hpath] at h
          cases h
          rfl
        | some path =>
          rw [hpath] at h
          dsimp only at h
          split at h
          · cases h
            rfl
          · cases h
          · cases h

def convertedTypes (lib : ConfigLibrary) : List YamlNode → List Str
  | [] => []
  | type :: types => match lib.asString type with
    | some name => name :: convertedTypes lib types
    | none => []

theorem setBuiltinObjFile_run (hmap : ∀ key, config.subscript key = .ok (config.lookup key)) (s : Settings) :
    run (setBuiltinObjFile lib config) s = match config.lookup ConfigKey.builtinObjFile with
      | none => (.error .assertion, s)
      | some node => match lib.asString node with
        | none => (.error .exception, s)
        | some path => (.ok (), { s with builtInObjectFilePath := path }) := by
  unfold setBuiltinObjFile
  rw [hmap, run_lift_bind]
  cases config.lookup ConfigKey.builtinObjFile with
  | none => rfl
  | some node =>
    dsimp only
    rw [run_lift_bind, convertNode, Option.bind_some]
    cases lib.asString node <;> rfl

def syntaxOnlyOf (lib : ConfigLibrary) (config : YamlNode) : Option Bool :=
  match config.lookup ConfigKey.syntaxOnly with
  | some node => lib.asBool node
  | none => some false

theorem setSyntaxOnly_run (hmap : ∀ key, config.subscript key = .ok (config.lookup key)) (s : Settings) :
    run (setSyntaxOnly lib config) s = match syntaxOnlyOf lib config with
      | none => (.error .exception, s)
      | some b => (.ok (), { s with syntaxOnly := b }) := by
  unfold setSyntaxOnly syntaxOnlyOf
  rw [hmap, run_lift_bind]
  cases config.lookup ConfigKey.syntaxOnly with
  | none => rfl
  | some node =>
    dsimp only
    rw [run_lift_bind, convertNode, Option.bind_some]
    cases lib.asBool node <;> rfl

theorem pushBasicTypes_run (types : List YamlNode) (s : Settings) : run (pushBasicTypes lib types) s =
    (if ∀ type ∈ types, (lib.asString type).isSome then .ok () else .error .exception,
      { s with basicTypes := s.basicTypes ++ convertedTypes lib types }) := by
  induction types generalizing s with
  | nil => simp [pushBasicTypes, convertedTypes]
  | cons type types ih =>
    unfold pushBasicTypes convertedTypes
    rw [run_lift_bind, convertNode, Option.bind_some]
    cases htype : lib.asString type with
    | none => simp [htype]
    | some name =>
      dsimp only
      rw [run_modify_bind, ih]
      simp [htype]

theorem asBool_boolText (lib : ConfigLibrary) (b : Bool) : lib.asBool (.scalar (boolText b)) = some b := by
  cases b
  · exact lib.asBool_false
  · exact lib.asBool_true

/-- What is left of the settings where the loading of an accepted document ends,
and how it ends. -/
def loaded (lib : ConfigLibrary) (config : YamlNode) (weak : Bool) (dir : Str) (types : List YamlNode) (s : Settings) :
    Except ConfigFault Bool × Settings :=
  let s := { s with isWeakType := weak, initDirPath := dir }
  match config.lookup ConfigKey.builtinObjFile with
  | none => (.error .assertion, s)
  | some node => match lib.asString node with
    | none => (.error .exception, s)
    | some path =>
      let s := { s with builtInObjectFilePath := path }
      match syntaxOnlyOf lib config with
      | none => (.error .exception, s)
      | some syntaxOnly =>
        let s := { s with syntaxOnly := syntaxOnly, basicTypes := s.basicTypes ++ convertedTypes lib types }
        if ∀ type ∈ types, (lib.asString type).isSome then (.ok true, { s with isInit := true })
        else (.error .exception, s)

variable {weak : Bool} {dir : Str} {types : List YamlNode}

theorem loadConfig_run (h : Accepted lib config weak dir types) (s : Settings) :
    run (loadConfig lib config) s = loaded lib config weak dir types s := by
  have hweak : (config.subscript ConfigKey.isWeakType >>= convertNode lib.asBool : Except ConfigFault Bool) = .ok weak := by
    rw [h.mapping, h.isWeakType]
    change convertNode lib.asBool _ = _
    rw [convertNode, Option.bind_some, asBool_boolText]
  have hdir : (config.subscript ConfigKey.initFileDir >>= convertNode lib.asString : Except ConfigFault Str) = .ok dir := by
    rw [h.mapping, h.initFileDir]
    change convertNode lib.asString _ = _
    rw [convertNode, Option.bind_some, lib.asString_scalar]
  unfold loadConfig loaded
  rw [hweak, hdir, run_lift_bind]
  dsimp only
  rw [run_modify_bind, run_lift_bind]
  dsimp only
  rw [run_modify_bind, run_bind, setBuiltinObjFile_run h.mapping]
  cases config.lookup ConfigKey.builtinObjFile with
  | none => rfl
  | some node =>
    dsimp only
    cases lib.asString node with
    | none => rfl
    | some path =>
      dsimp only
      rw [run_bind, setSyntaxOnly_run h.mapping]
      cases syntaxOnlyOf lib config with
      | none => rfl
      | some syntaxOnly =>
        dsimp only
        rw [h.mapping, h.basicTypes, run_lift_bind]
        dsimp only
        rw [run_bind, Option.map_some, Option.getD_some, YamlNode.items, pushBasicTypes_run]
        by_cases hall : ∀ type ∈ types, (lib.asString type).isSome
        · rw [if_pos hall, if_pos hall]
          rfl
        · rw [if_neg hall, if_neg hall]

theorem loaded_ne_badFile (lib : ConfigLibrary) (config : YamlNode) (weak : Bool) (dir : Str) (types : List YamlNode)
    (s : Settings) : (loaded lib config weak dir types s).1 ≠ .error .badFile := by
  unfold loaded
  dsimp only
  cases config.lookup ConfigKey.builtinObjFile with
  | none => simp
  | some node =>
    cases hpath : lib.asString node with
    | none => simp [hpath]
    | some path =>
      cases hflag : syntaxOnlyOf lib config with
      | none => simp [hpath]
      | some syntaxOnly =>
        dsimp only
        rw [hpath]
        dsimp only
        split <;> simp

/-- `Init` on a document: the validator answers first, and `BadFile` is not thrown
any more. -/
theorem initConfiguration_document (config : YamlNode) (s : Settings) : run (initConfiguration lib (.ok config)) s =
    match configFileValidate lib (.ok config) with
    | .error f => (.error f, s)
    | .ok false => (.ok false, s)
    | .ok true => run (loadConfig lib config) s := by
  unfold initConfiguration
  rw [run_tryCatch, run_lift_bind]
  dsimp only
  rw [run_lift_bind]
  cases hvalid : configFileValidate lib (.ok config) with
  | error f =>
    obtain rfl := configFileValidate_error hvalid
    rfl
  | ok valid =>
    cases valid with
    | false => rfl
    | true =>
      obtain ⟨weak,dir,types,h⟩ := configFileValidate_iff.mp hvalid
      dsimp only
      rw [if_neg (by decide), loadConfig_run h]
      have hcaught := loaded_ne_badFile lib config weak dir types s
      cases hrun : loaded lib config weak dir types s with
      | mk r t =>
        cases r with
        | ok b => rfl
        | error f =>
          have hf : f ≠ .badFile := by
            rintro rfl
            rw [hrun] at hcaught
            exact hcaught rfl
          dsimp only
          rw [if_neg hf]
          rfl

theorem initConfiguration_run (h : Accepted lib config weak dir types) (s : Settings) :
    run (initConfiguration lib (.ok config)) s = loaded lib config weak dir types s := by
  rw [initConfiguration_document, configFileValidate_iff.mpr ⟨weak,dir,types,h⟩, ← loadConfig_run h]

/-- What `Init` needs of a document and the validator does not ask for. -/
structure Loads (lib : ConfigLibrary) (config : YamlNode) : Prop where
  builtinObjFile : ∃ node path, config.lookup ConfigKey.builtinObjFile = some node ∧ lib.asString node = some path
  syntaxOnly : ∀ node, config.lookup ConfigKey.syntaxOnly = some node → ∃ b, lib.asBool node = some b
  basicTypes : ∀ types, config.lookup ConfigKey.basicTypes = some (.sequence types) →
    ∀ type ∈ types, ∃ name, lib.asString type = some name

theorem syntaxOnlyOf_isSome : (∃ b, syntaxOnlyOf lib config = some b) ↔
    ∀ node, config.lookup ConfigKey.syntaxOnly = some node → ∃ b, lib.asBool node = some b := by
  unfold syntaxOnlyOf
  cases config.lookup ConfigKey.syntaxOnly with
  | none => simp
  | some node => simp

theorem Accepted.loads_iff (h : Accepted lib config weak dir types) : Loads lib config ↔
    (∃ node path, config.lookup ConfigKey.builtinObjFile = some node ∧ lib.asString node = some path) ∧
    (∃ b, syntaxOnlyOf lib config = some b) ∧ ∀ type ∈ types, (lib.asString type).isSome := by
  rw [syntaxOnlyOf_isSome]
  constructor
  · rintro ⟨hbuiltin,hflag,htypes⟩
    exact ⟨hbuiltin,hflag,fun type htype => Option.isSome_iff_exists.mpr (htypes types h.basicTypes type htype)⟩
  · rintro ⟨hbuiltin,hflag,htypes⟩
    refine ⟨hbuiltin,hflag,fun types' htypes' type htype => Option.isSome_iff_exists.mp (htypes type ?_)⟩
    rw [h.basicTypes] at htypes'
    cases htypes'
    exact htype

theorem Accepted.loaded_true_iff (h : Accepted lib config weak dir types) (s : Settings) :
    (loaded lib config weak dir types s).1 = .ok true ↔ Loads lib config := by
  rw [h.loads_iff]
  unfold loaded
  dsimp only
  cases config.lookup ConfigKey.builtinObjFile with
  | none => simp
  | some node =>
    dsimp only
    cases hpath : lib.asString node with
    | none => simp [hpath]
    | some path =>
      dsimp only
      cases syntaxOnlyOf lib config with
      | none => simp
      | some b =>
        dsimp only
        by_cases hall : ∀ type ∈ types, (lib.asString type).isSome
        · rw [if_pos hall]
          exact ⟨fun _ => ⟨⟨node,path,rfl,hpath⟩,⟨b,rfl⟩,hall⟩,fun _ => rfl⟩
        · rw [if_neg hall]
          exact ⟨fun heq => absurd heq (by simp),fun h => absurd h.2.2 hall⟩

end

/-- A document that the validator accepts is loaded exactly when it has a
`BuiltinObjFile` and all that the loader converts is of the type it wants. -/
theorem initConfiguration_true_iff (lib : ConfigLibrary) (config : YamlNode)
    (hvalid : configFileValidate lib (.ok config) = .ok true) (s : Settings) :
    (run (initConfiguration lib (.ok config)) s).1 = .ok true ↔ Loads lib config := by
  obtain ⟨weak,dir,types,h⟩ := configFileValidate_iff.mp hvalid
  rw [initConfiguration_run h, h.loaded_true_iff]

def plainLibrary : ConfigLibrary where
  asString := fun
    | .scalar text => some text
    | .null => some "null".toList
    | _ => none
  asBool := fun node =>
    if node.hasText "true".toList then some true else if node.hasText "false".toList then some false else none
  pathExists := fun _ => some true
  asString_scalar := fun _ => rfl
  asBool_true := rfl
  asBool_false := rfl

def readmeEntries : List (YamlNode × YamlNode) :=
  [(.scalar ConfigKey.initFileDir, .scalar "abs_path/to/mutation_corpus".toList),
   (.scalar ConfigKey.isWeakType, .scalar "true".toList),
   (.scalar ConfigKey.basicTypes, .sequence [.scalar "X".toList])]

theorem readme_notLoaded : configFileValidate plainLibrary (.ok (.map readmeEntries)) = .ok true ∧
    (run (initConfiguration plainLibrary (.ok (.map readmeEntries))) .fresh).1 = .error .assertion := ⟨rfl,rfl⟩

def builtinEntry : YamlNode × YamlNode := (.scalar ConfigKey.builtinObjFile, .scalar "builtin".toList)

theorem readmeWithBuiltin_loaded :
    (run (initConfiguration plainLibrary (.ok (.map (builtinEntry :: readmeEntries)))) .fresh).1 = .ok true := by
  apply (initConfiguration_true_iff plainLibrary (.map (builtinEntry :: readmeEntries)) rfl .fresh).mpr
  refine ⟨⟨_,_,rfl,rfl⟩,?_,?_⟩
  · intro node hnode
    cases hnode
  · intro types htypes type htype
    cases htypes
    obtain rfl := List.mem_singleton.mp htype
    exact ⟨_,rfl⟩

end PolyGlot
