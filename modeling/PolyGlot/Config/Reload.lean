import PolyGlot.Config.Loading
import PolyGlot.Support.Along

set_option autoImplicit false

/-! # Repeated initialisation

`Configuration` is a singleton, which every call of `Initialize` fills member by
member: all but the basic types are replaced, and what a conversion that throws comes
after stays set.
-/
namespace PolyGlot

open Attempt

def Settings.values (s : Settings) : Bool × Bool × Str × List Str :=
  (s.isWeakType, s.syntaxOnly, s.initDirPath, s.basicTypes)

section
variable (lib : ConfigLibrary)

def nextSettings (s : Settings) (file : Except ConfigFault YamlNode) : Option Settings :=
  if (run (initConfiguration lib file) s).1 = .error .assertion then none
  else some (run (initConfiguration lib file) s).2

/-- A call that returns true leaves the values that it gives in a fresh process, and
one that returns false or throws leaves those that were there. -/
structure Replaces (s : Settings) (file : Except ConfigFault YamlNode) : Prop where
  success : (run (initConfiguration lib file) s).1 = .ok true →
    (run (initConfiguration lib file) s).2.values = (run (initConfiguration lib file) .fresh).2.values
  failure : (run (initConfiguration lib file) s).1 = .ok false ∨ (run (initConfiguration lib file) s).1 = .error .exception →
    (run (initConfiguration lib file) s).2.values = s.values

/-- Where the values that a call sets before it throws, and those that it adds to,
are such that nothing is seen of it. -/
structure Unseen (s : Settings) (config : YamlNode) (weak : Bool) (dir : Str) (types : List YamlNode) : Prop where
  complete : Loads lib config → s.basicTypes = []
  cut : ¬ Loads lib config → config.lookup ConfigKey.builtinObjFile ≠ none → s.isWeakType = weak ∧ s.initDirPath = dir
  cutTypes : ¬ Loads lib config → ∀ node path b, config.lookup ConfigKey.builtinObjFile = some node →
    lib.asString node = some path → syntaxOnlyOf lib config = some b →
    s.syntaxOnly = b ∧ ∀ type ∈ types.head?, lib.asString type = none

def CallUnseen (s : Settings) (file : Except ConfigFault YamlNode) : Prop :=
  ∀ config weak dir types, file = .ok config → Accepted lib config weak dir types → Unseen lib s config weak dir types

variable {lib} {config : YamlNode} {weak : Bool} {dir : Str} {types : List YamlNode} {s : Settings}

theorem convertedTypes_eq_nil (hnot : ¬ ∀ type ∈ types, (lib.asString type).isSome) :
    convertedTypes lib types = [] ↔ ∀ type ∈ types.head?, lib.asString type = none := by
  cases types with
  | nil => simp at hnot
  | cons type types =>
    rw [convertedTypes]
    cases htype : lib.asString type <;> simp [htype]

/-- When the loading ends before it comes to the basic types. -/
theorem unseen_iff_of_cut (hnot : ¬ Loads lib config) {node : YamlNode}
    (hbuiltin : config.lookup ConfigKey.builtinObjFile = some node)
    (hcut : lib.asString node = none ∨ syntaxOnlyOf lib config = none) :
    Unseen lib s config weak dir types ↔ s.isWeakType = weak ∧ s.initDirPath = dir := by
  constructor
  · intro h
    exact h.cut hnot (by simp [hbuiltin])
  · intro h
    refine ⟨fun hl => absurd hl hnot,fun _ _ => h,?_⟩
    intro _ node' path b hnode hpath hflag
    rw [hbuiltin] at hnode
    cases hnode
    rcases hcut with hcut | hcut
    · rw [hcut] at hpath
      cases hpath
    · rw [hcut] at hflag
      cases hflag

/-- When it ends at a basic type. -/
theorem unseen_iff_of_types (hnot : ¬ Loads lib config) {node : YamlNode} {path : Str} {b : Bool}
    (hbuiltin : config.lookup ConfigKey.builtinObjFile = some node) (hpath : lib.asString node = some path)
    (hflag : syntaxOnlyOf lib config = some b) (hall : ¬ ∀ type ∈ types, (lib.asString type).isSome) :
    Unseen lib s config weak dir types ↔
      s.isWeakType = weak ∧ s.syntaxOnly = b ∧ s.initDirPath = dir ∧ convertedTypes lib types = [] := by
  rw [convertedTypes_eq_nil hall]
  constructor
  · intro h
    obtain ⟨hweak,hdir⟩ := h.cut hnot (by simp [hbuiltin])
    obtain ⟨hb,hfirst⟩ := h.cutTypes hnot node path b hbuiltin hpath hflag
    exact ⟨hweak,hb,hdir,hfirst⟩
  · rintro ⟨hweak,hb,hdir,hfirst⟩
    refine ⟨fun hl => absurd hl hnot,fun _ _ => ⟨hweak,hdir⟩,?_⟩
    intro _ node' path' b' _ _ hflag'
    rw [hflag] at hflag'
    cases hflag'
    exact ⟨hb,hfirst⟩

theorem unseen_iff_of_loads (h : Loads lib config) : Unseen lib s config weak dir types ↔ s.basicTypes = [] :=
  ⟨fun hunseen => hunseen.complete h,fun hnil => ⟨fun _ => hnil,fun hnot => absurd h hnot,fun hnot => absurd h hnot⟩⟩

section Endings
variable {file : Except ConfigFault YamlNode} {t : Settings}

theorem replaces_of_success (hrun : run (initConfiguration lib file) s = (.ok true, t)) :
    Replaces lib s file ↔ t.values = (run (initConfiguration lib file) .fresh).2.values := by
  constructor
  · intro h
    have hvalues := h.success (by rw [hrun])
    rwa [hrun] at hvalues
  · intro h
    exact ⟨fun _ => by rwa [hrun],fun hend => absurd hend (by rw [hrun]; simp)⟩

theorem replaces_of_failure {r : Except ConfigFault Bool} (hrun : run (initConfiguration lib file) s = (r, t))
    (hr : r = .ok false ∨ r = .error .exception) : Replaces lib s file ↔ t.values = s.values := by
  constructor
  · intro h
    have hvalues := h.failure (by rwa [hrun])
    rwa [hrun] at hvalues
  · intro h
    refine ⟨fun hend => ?_,fun _ => by rwa [hrun]⟩
    rw [hrun] at hend
    rcases hr with rfl | rfl
    · cases hend
    · cases hend

theorem replaces_of_assertion (hrun : run (initConfiguration lib file) s = (.error .assertion, t)) :
    Replaces lib s file := by
  constructor
  · intro hend
    rw [hrun] at hend
    cases hend
  · rintro (hend | hend)
    · rw [hrun] at hend
      cases hend
    · rw [hrun] at hend
      cases hend

end Endings

/-- For an accepted document, by where the loading ends. -/
theorem replaces_iff_unseen (h : Accepted lib config weak dir types) :
    Replaces lib s (.ok config) ↔ Unseen lib s config weak dir types := by
  have hloads := h.loads_iff
  have hrun := initConfiguration_run h
  unfold loaded at hrun
  dsimp only at hrun
  cases hbuiltin : config.lookup ConfigKey.builtinObjFile with
  | none =>
    have hnot : ¬ Loads lib config := by
      rw [hloads, hbuiltin]
      simp
    rw [hbuiltin] at hrun
    refine iff_of_true (replaces_of_assertion (hrun s)) ⟨fun hl => absurd hl hnot,fun _ hb => absurd hbuiltin hb,?_⟩
    intro _ node path b hnode
    rw [hbuiltin] at hnode
    cases hnode
  | some node =>
    rw [hbuiltin] at hrun hloads
    dsimp only at hrun
    cases hpath : lib.asString node with
    | none =>
      have hnot : ¬ Loads lib config := by
        rw [hloads]
        simp [hpath]
      rw [hpath] at hrun
      rw [replaces_of_failure (hrun s) (.inr rfl), unseen_iff_of_cut hnot hbuiltin (.inl hpath)]
      simp [Settings.values, eq_comm]
    | some path =>
      rw [hpath] at hrun
      dsimp only at hrun
      cases hflag : syntaxOnlyOf lib config with
      | none =>
        have hnot : ¬ Loads lib config := by
          rw [hloads, hflag]
          simp
        rw [hflag] at hrun
        rw [replaces_of_failure (hrun s) (.inr rfl), unseen_iff_of_cut hnot hbuiltin (.inr hflag)]
        simp [Settings.values, eq_comm]
      | some b =>
        rw [hflag] at hrun
        dsimp only at hrun
        by_cases hall : ∀ type ∈ types, (lib.asString type).isSome
        · have hyes : Loads lib config := hloads.mpr ⟨⟨node,path,rfl,hpath⟩,⟨b,hflag⟩,hall⟩
          simp only [if_pos hall] at hrun
          rw [replaces_of_success (hrun s), hrun .fresh]
          have hvalues : s.basicTypes ++ convertedTypes lib types = [] ++ convertedTypes lib types ↔ s.basicTypes = [] :=
            List.append_left_inj _
          rw [unseen_iff_of_loads hyes]
          simp only [Settings.values, Settings.fresh, Prod.mk.injEq, true_and, hvalues]
        · have hnot : ¬ Loads lib config := fun hl => hall (hloads.mp hl).2.2
          simp only [if_neg hall] at hrun
          rw [replaces_of_failure (hrun s) (.inr rfl), unseen_iff_of_types hnot hbuiltin hpath hflag hall]
          simp only [Settings.values, Prod.mk.injEq, List.append_right_eq_self]
          simp only [eq_comm]

theorem replaces_of_rejected (h : ∀ weak dir types, ¬ Accepted lib config weak dir types) :
    Replaces lib s (.ok config) := by
  have hrun : run (initConfiguration lib (.ok config)) s = _ := initConfiguration_document config s
  cases hvalid : configFileValidate lib (.ok config) with
  | error f =>
    obtain rfl := configFileValidate_error hvalid
    rw [hvalid] at hrun
    exact (replaces_of_failure hrun (.inr rfl)).mpr rfl
  | ok valid =>
    rw [hvalid] at hrun
    cases valid with
    | false => exact (replaces_of_failure hrun (.inl rfl)).mpr rfl
    | true =>
      obtain ⟨weak,dir,types,haccepted⟩ := configFileValidate_iff.mp hvalid
      exact absurd haccepted (h weak dir types)

theorem replaces_of_unread {f : ConfigFault} : Replaces lib s (.error f) := by
  cases f with
  | badFile => exact (replaces_of_failure (t := s) rfl (.inl rfl)).mpr rfl
  | exception => exact (replaces_of_failure (t := s) rfl (.inr rfl)).mpr rfl
  | assertion => exact replaces_of_assertion (t := s) rfl

theorem replaces_iff (s : Settings) (file : Except ConfigFault YamlNode) : Replaces lib s file ↔ CallUnseen lib s file := by
  cases file with
  | error f =>
    apply iff_of_true replaces_of_unread
    intro config weak dir types hfile
    cases hfile
  | ok config =>
    constructor
    · intro h config' weak dir types hfile haccepted
      cases hfile
      exact (replaces_iff_unseen haccepted).mp h
    · intro h
      by_cases haccepted : ∃ weak dir types, Accepted lib config weak dir types
      · obtain ⟨weak,dir,types,haccepted⟩ := haccepted
        exact (replaces_iff_unseen haccepted).mpr (h config weak dir types rfl haccepted)
      · exact replaces_of_rejected fun weak dir types h => haccepted ⟨weak,dir,types,h⟩

end

/-- In every run of calls from the start of the process, each call replaces the
values or keeps them exactly when the condition holds at each. -/
theorem initialize_replaces_iff (lib : ConfigLibrary) (files : List (Except ConfigFault YamlNode)) :
    Along (nextSettings lib) (Replaces lib) files .fresh ↔ Along (nextSettings lib) (CallUnseen lib) files .fresh := by
  constructor
  · intro h
    exact Along.of_invariant (I := fun _ => True) (fun _ _ _ _ _ _ => trivial) (fun s file _ => (replaces_iff s file).mp)
      trivial h
  · intro h
    exact Along.of_invariant (I := fun _ => True) (fun _ _ _ _ _ _ => trivial) (fun s file _ => (replaces_iff s file).mpr)
      trivial h

/-- The same document twice: the basic type is there twice. -/
theorem initializeTwice_doubles :
    ¬ Along (nextSettings plainLibrary) (Replaces plainLibrary)
      [.ok (.map (builtinEntry :: readmeEntries)),.ok (.map (builtinEntry :: readmeEntries))] .fresh := by
  rintro ⟨_,hrest⟩
  obtain ⟨hsecond,_⟩ := hrest _ rfl
  have hdoubled := congrArg (fun v => v.2.2.2) (hsecond.success rfl)
  exact absurd hdoubled (by decide +kernel)

end PolyGlot
