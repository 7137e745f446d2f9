import PolyGlot.Scope.Kept

set_option autoImplicit false

/-! # Looking a name up

`GetDefinition` goes through the table of a scope by type, and through the
definitions of a type in the order in which they came. So of the definitions of a
name it gives the first one of the type with the smallest id.
-/
namespace PolyGlot

open VectorMap

def SymbolTable.getDefinition (t : SymbolTable) (name : Str) : Option Definition :=
  t.toList.findSome? fun e => e.2.find? fun d => d.name = name

def Scope.addAll (s : Scope) (ds : List Definition) : Scope := ds.foldl (fun s d => s.addDefinition d) s

/-- Of the definitions of its name in the list, `d` is the first of the smallest type. -/
def FirstOfSmallest (ds : List Definition) (d : Definition) : Prop :=
  ∃ before after, ds = before ++ d :: after ∧ (∀ a ∈ before, a.name = d.name → d.type < a.type) ∧
    ∀ a ∈ after, a.name = d.name → d.type ≤ a.type

section
variable {s : Scope} {ds l : List Definition} {d : Definition} {name : Str} {t : TypeID}

def accepted (ds : List Definition) : List Definition := ds.filter fun d => d.type ≠ SpecialType.kNotExist

/-- A table keeps the definitions of each type in their order. -/
theorem vals_addAll :
    (s.addAll ds).symbolTable.vals t = s.symbolTable.vals t ++ (accepted ds).filter fun d => d.type = t := by
  induction ds generalizing s with
  | nil => simp [Scope.addAll, accepted]
  | cons d ds ih =>
    have hstep : (s.addAll (d :: ds)).symbolTable.vals t = ((s.addDefinition d).addAll ds).symbolTable.vals t := rfl
    rw [hstep, ih, Scope.addDefinition]
    unfold accepted
    by_cases hnone : d.type = SpecialType.kNotExist
    · simp [hnone]
    · rw [if_neg hnone, List.filter_cons_of_pos (by simpa using hnone)]
      by_cases ht : d.type = t
      · simp [vals_push, ht]
      · simp [vals_push, ht]

/-- What a search of the definitions of one type finds. -/
theorem find?_ofType_iff : (l.filter fun d => d.type = t).find? (fun d => d.name = name) = some d ↔
    (d.type = t ∧ d.name = name) ∧ ∃ before after, l = before ++ d :: after ∧
      ∀ a ∈ before, a.name = name → a.type ≠ t := by
  rw [List.find?_filter, List.find?_eq_some_iff_append]
  simp only [decide_eq_true_eq, Bool.not_eq_true', decide_eq_false_iff_not, not_and', ne_eq]

theorem find?_ofType_none : (l.filter fun d => d.type = t).find? (fun d => d.name = name) = none ↔
    ∀ a ∈ l, a.name = name → a.type ≠ t := by
  rw [List.find?_filter, List.find?_eq_none]
  simp only [decide_eq_true_eq, not_and', ne_eq]

/-- `GetDefinition` after any calls of `AddDefinition` on a scope without definitions. -/
theorem getDefinition_addAll (hempty : s.symbolTable = ∅) :
    (s.addAll ds).symbolTable.getDefinition name = some d ↔ d.name = name ∧ FirstOfSmallest (accepted ds) d := by
  have hlt : ∀ a b : TypeID, compare a b = .lt ↔ a < b := fun a b => compare_lt_iff_lt
  have hvals : ∀ t, (s.addAll ds).symbolTable.vals t = (accepted ds).filter fun d => d.type = t := by
    intro t
    rw [vals_addAll, hempty, vals_empty, List.nil_append]
  refine (findSome?_eq_some_iff hlt).trans ?_
  simp only [hvals, find?_ofType_iff, find?_ofType_none]
  constructor
  · rintro ⟨t,⟨⟨rfl,rfl⟩,before,after,heq,hbefore⟩,hsmaller⟩
    have hle : ∀ a ∈ accepted ds, a.name = d.name → d.type ≤ a.type := by
      intro a ha hname
      by_contra hlt
      exact hsmaller a.type (not_le.mp hlt) a ha hname rfl
    refine ⟨rfl,before,after,heq,?_,?_⟩
    · intro a ha hname
      exact lt_of_le_of_ne (hle a (heq ▸ List.mem_append_left _ ha) hname) (hbefore a ha hname).symm
    · intro a ha hname
      exact hle a (heq ▸ List.mem_append_right _ (List.mem_cons_of_mem _ ha)) hname
  · rintro ⟨rfl,before,after,heq,hbefore,hafter⟩
    refine ⟨d.type,⟨⟨rfl,rfl⟩,before,after,heq,?_⟩,?_⟩
    · intro a ha hname
      exact (hbefore a ha hname).ne'
    · intro t ht a ha hname
      have hle : d.type ≤ a.type := by
        rw [heq] at ha
        rcases List.mem_append.mp ha with ha | ha
        · exact (hbefore a ha hname).le
        · rcases List.mem_cons.mp ha with rfl | ha
          · exact le_rfl
          · exact hafter a ha hname
      exact (ht.trans_le hle).ne'

/-- Of two types the one with the smaller id answers, also when it came later. -/
theorem redefined_found : ((Scope.addAll ⟨1,none,.kScopeGlobal,∅,∅⟩
    [⟨['a'],12,3⟩,⟨['b'],10,4⟩,⟨['a'],11,5⟩,⟨['a'],11,6⟩,⟨['a'],0,7⟩]).symbolTable.getDefinition ['a']) =
      some ⟨['a'],11,5⟩ := by
  refine (getDefinition_addAll rfl).mpr ⟨rfl,[⟨['a'],12,3⟩,⟨['b'],10,4⟩],[⟨['a'],11,6⟩],rfl,?_,?_⟩
  · decide
  · decide

end

end PolyGlot
