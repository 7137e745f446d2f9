import PolyGlot.Antlr.Translate

set_option autoImplicit false

/-! # The frontend over many calls

The parser, its error listener and its caches are static members of
`TranslateToIR`, so a call can see what an earlier one left behind. It does so
only where an exception comes after an error was reported: the flag of the
listener stays set, and the next text that has a tree is lost.
-/
namespace PolyGlot

/-- What ANTLR makes of a text: whether an error is reported to the listener, and
the tree, unless `IllegalArgumentException` is thrown. -/
structure Recognition where
  reported : Bool
  tree : Option ParseTree

structure Frontend where
  hasError : Bool
  counter : ℕ

namespace Frontend

def start : Frontend := ⟨false,0⟩

section
variable (antlr : Str → Recognition)

/-- `TranslateToIR` up to the call of `TranslateNode`. -/
def parse (text : Str) (s : Frontend) : Option ParseTree × Frontend :=
  let hasError := s.hasError || (antlr text).reported
  match (antlr text).tree with
  | none => (none,{ s with hasError := hasError })
  | some t =>
    if hasError then (none,{ s with hasError := false })
    else (some t,⟨false,if s.counter > 10000 then 0 else s.counter + 1⟩)

def parseAll : List Str → Frontend → List (Option ParseTree) × Frontend
  | [], s => ([],s)
  | text :: texts, s =>
    let first := parse antlr text s
    let rest := parseAll texts first.2
    (first.1 :: rest.1,rest.2)

def parseFresh (text : Str) : Option ParseTree := (parse antlr text start).1

def ThrowsLate (text : Str) : Prop := (antlr text).reported = true ∧ (antlr text).tree = none

def Throws (text : Str) : Prop := (antlr text).tree = none

/-- A text without errors comes after one that throws late, with none between
them that resets the flag. -/
def Swallows (texts : List Str) : Prop :=
  ∃ earlier late thrown text later, texts = earlier ++ late :: thrown ++ text :: later ∧ ThrowsLate antlr late ∧
    (∀ u ∈ thrown, Throws antlr u) ∧ (parseFresh antlr text).isSome

def Loses (texts : List Str) (s : Frontend) : Prop :=
  s.hasError = true ∧ ∃ thrown text later, texts = thrown ++ text :: later ∧ (∀ u ∈ thrown, Throws antlr u) ∧
    (parseFresh antlr text).isSome

end

section
variable {antlr : Str → Recognition} {text : Str} {texts : List Str} {s : Frontend}

theorem parseFresh_eq (text : Str) : parseFresh antlr text = if (antlr text).reported then none else (antlr text).tree := by
  unfold parseFresh parse start
  cases (antlr text).tree <;> cases (antlr text).reported <;> rfl

/-- The flag after a call. -/
theorem parse_hasError (text : Str) (s : Frontend) : (parse antlr text s).2.hasError = true ↔
    Throws antlr text ∧ (s.hasError = true ∨ ThrowsLate antlr text) := by
  unfold parse Throws ThrowsLate
  cases (antlr text).tree <;> cases s.hasError <;> cases (antlr text).reported <;> simp

/-- A call is given what a fresh process is, unless the flag is set and the text
has no errors. -/
theorem parse_eq_iff (text : Str) (s : Frontend) : (parse antlr text s).1 = parseFresh antlr text ↔
    ¬ (s.hasError = true ∧ (parseFresh antlr text).isSome) := by
  rw [parseFresh_eq]
  unfold parse
  cases (antlr text).tree <;> cases s.hasError <;> cases (antlr text).reported <;> simp

/-- The text that a flag costs is the next one that has a tree. -/
theorem loses_cons : Loses antlr (text :: texts) s ↔ s.hasError = true ∧
    ((parseFresh antlr text).isSome ∨ Throws antlr text ∧ Loses antlr texts { s with hasError := true }) := by
  constructor
  · rintro ⟨hflag,_ | ⟨u,thrown⟩,v,later,heq,hthrown,hclean⟩
    · cases heq
      exact ⟨hflag,.inl hclean⟩
    · cases heq
      obtain ⟨hu,hrest⟩ := List.forall_mem_cons.mp hthrown
      exact ⟨hflag,.inr ⟨hu,rfl,thrown,v,later,rfl,hrest,hclean⟩⟩
  · rintro ⟨hflag,hclean | ⟨hthrows,-,thrown,v,later,rfl,hthrown,hclean⟩⟩
    · exact ⟨hflag,[],text,texts,rfl,by simp,hclean⟩
    · exact ⟨hflag,text :: thrown,v,later,rfl,List.forall_mem_cons.mpr ⟨hthrows,hthrown⟩,hclean⟩

theorem swallows_cons : Swallows antlr (text :: texts) ↔ Swallows antlr texts ∨
    ThrowsLate antlr text ∧ Loses antlr texts { s with hasError := true } := by
  constructor
  · rintro ⟨_ | ⟨u,earlier⟩,late,thrown,v,later,heq,hlate,hthrown,hclean⟩
    · cases heq
      exact .inr ⟨hlate,rfl,thrown,v,later,rfl,hthrown,hclean⟩
    · cases heq
      exact .inl ⟨earlier,late,thrown,v,later,rfl,hlate,hthrown,hclean⟩
  · rintro (⟨earlier,late,thrown,v,later,rfl,hlate,hthrown,hclean⟩ | ⟨hlate,-,thrown,v,later,rfl,hthrown,hclean⟩)
    · exact ⟨text :: earlier,late,thrown,v,later,rfl,hlate,hthrown,hclean⟩
    · exact ⟨[],text,thrown,v,later,rfl,hlate,hthrown,hclean⟩

theorem loses_congr {s' : Frontend} (h : s.hasError = s'.hasError) : Loses antlr texts s ↔ Loses antlr texts s' := by
  unfold Loses
  rw [h]

/-- From every state: the flag that is set may cost a text, and so may one that a
late exception sets. -/
theorem parseAll_eq_iff (texts : List Str) (s : Frontend) : (parseAll antlr texts s).1 = texts.map (parseFresh antlr) ↔
    ¬ (Loses antlr texts s ∨ Swallows antlr texts) := by
  induction texts generalizing s with
  | nil => simp [parseAll, Loses, Swallows]
  | cons text texts ih =>
    have hafter : Loses antlr texts (parse antlr text s).2 ↔
        Throws antlr text ∧ (s.hasError = true ∨ ThrowsLate antlr text) ∧ Loses antlr texts { s with hasError := true } := by
      constructor
      · intro h
        obtain ⟨hthrows,hflag⟩ := (parse_hasError text s).mp h.1
        exact ⟨hthrows,hflag,(loses_congr h.1).mp h⟩
      · rintro ⟨hthrows,hflag,h⟩
        exact (loses_congr ((parse_hasError text s).mpr ⟨hthrows,hflag⟩)).mpr h
    have hlate : ThrowsLate antlr text → Throws antlr text := And.right
    rw [parseAll, List.map_cons, List.cons.injEq, parse_eq_iff, ih, hafter, loses_cons, swallows_cons (s := s)]
    tauto

/-- The calls of a process are given what fresh processes are, each for its text,
exactly when no late exception swallows a text without errors. -/
theorem parseAll_fresh_iff (texts : List Str) : (parseAll antlr texts start).1 = texts.map (parseFresh antlr) ↔
    ¬ Swallows antlr texts := by
  rw [parseAll_eq_iff]
  simp [Loses, start]

instance (text : Str) : Decidable (ThrowsLate antlr text) :=
  inferInstanceAs (Decidable ((antlr text).reported = true ∧ (antlr text).tree = none))

def lost (antlr : Str → Recognition) : List Str → Frontend → List Str
  | [], _ => []
  | text :: texts, s =>
    if (parse antlr text s).1.isSome = (parseFresh antlr text).isSome then lost antlr texts (parse antlr text s).2
    else text :: lost antlr texts (parse antlr text s).2

def owed (s : Frontend) : ℕ := if s.hasError then 1 else 0

theorem lost_length_add_owed (texts : List Str) (s : Frontend) :
    (lost antlr texts s).length + (parseAll antlr texts s).2.owed ≤ s.owed + texts.countP (ThrowsLate antlr) := by
  induction texts generalizing s with
  | nil => simp [lost, parseAll]
  | cons text texts ih =>
    have hrest := ih (parse antlr text s).2
    have hflag : (parse antlr text s).2.hasError = true ↔ _ := parse_hasError text s
    rw [lost, parseAll, List.countP_cons]
    unfold owed at hrest ⊢
    by_cases hsame : (parse antlr text s).1.isSome = (parseFresh antlr text).isSome
    · rw [if_pos hsame]
      grind
    · rw [if_neg hsame, List.length_cons]
      have hdiffers : ¬ (parse antlr text s).1 = parseFresh antlr text := fun heq => hsame (congrArg Option.isSome heq)
      rw [parse_eq_iff, not_not, parseFresh_eq] at hdiffers
      obtain ⟨hset,hclean⟩ := hdiffers
      have htree : ¬ Throws antlr text := by
        intro hthrows
        rw [Throws] at hthrows
        simp [hthrows] at hclean
      grind

/-- No more texts are lost than exceptions came late. -/
theorem lost_length_le (texts : List Str) : (lost antlr texts start).length ≤ texts.countP (ThrowsLate antlr) := by
  have h : (lost antlr texts start).length + _ ≤ _ := lost_length_add_owed texts start
  simp only [owed, start] at h
  simp only [start]
  grind

end

end Frontend

end PolyGlot
