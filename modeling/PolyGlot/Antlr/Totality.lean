import PolyGlot.Antlr.Labels

set_option autoImplicit false

/-! # When a translation ends

A context stops the translation in two ways: the text of an int literal is no
`int`, or nothing came out of its children and its text is not empty and not a
single `<EOF>`.
-/
namespace PolyGlot

mutual
def ParseTree.IntsDecimal : ParseTree → Prop
  | .terminal _ => True
  | .rule ctx cs => (ctx.isIntLiteral → getTexts cs ≠ [] ∧ ∀ c ∈ getTexts cs, c.isDigit) ∧ AllIntsDecimal cs
def AllIntsDecimal : List ParseTree → Prop
  | [] => True
  | c :: cs => c.IntsDecimal ∧ AllIntsDecimal cs
end

mutual
def ParseTree.hasContent : ParseTree → Bool
  | .terminal text => text ≠ eofText
  | .rule ctx cs => ctx.isLiteral || anyContent cs
def anyContent : List ParseTree → Bool
  | [] => false
  | c :: cs => c.hasContent || anyContent cs
end

mutual
def ParseTree.hasFloat : ParseTree → Bool
  | .terminal _ => false
  | .rule ctx cs => ctx.isFloatLiteral || anyFloat cs
def anyFloat : List ParseTree → Bool
  | [] => false
  | c :: cs => c.hasFloat || anyFloat cs
end

mutual
def ParseTree.eofs : ParseTree → ℕ
  | .terminal text => if text = eofText then 1 else 0
  | .rule _ cs => allEofs cs
def allEofs : List ParseTree → ℕ
  | [] => 0
  | c :: cs => c.eofs + allEofs cs
end

mutual
/-- Outside string literals the value of every int literal is an `int`, and
outside literals no context without content for the translator holds two `<EOF>`. -/
def ParseTree.Survives : ParseTree → Prop
  | .terminal _ => True
  | .rule ctx cs =>
    if ctx.isStringLiteral then True
    else if ctx.isIntLiteral then (Nat.ofDigitChars 10 (getTexts cs) 0 : ℤ) ≤ intMax
    else (allBlank cs → allEofs cs ≤ 1) ∧ AllSurvive cs
def AllSurvive : List ParseTree → Prop
  | [] => True
  | c :: cs => c.Survives ∧ AllSurvive cs
end

theorem allIntsDecimal_iff {cs : List ParseTree} : AllIntsDecimal cs ↔ ∀ c ∈ cs, c.IntsDecimal := by
  induction cs with
  | nil => simp [AllIntsDecimal]
  | cons c cs ih => simp [AllIntsDecimal, ih]

/-- Digits are read as the number they stand for, as long as it is an `int`. -/
theorem stoi_digits {s : Str} (hne : s ≠ []) (hs : ∀ c ∈ s, c.isDigit) :
    stoi s = if (Nat.ofDigitChars 10 s 0 : ℤ) ≤ intMax then some (Nat.ofDigitChars 10 s 0 : ℤ) else none := by
  obtain ⟨c,cs,rfl⟩ := List.exists_cons_of_ne_nil hne
  have hc : c.isDigit := hs c (by simp)
  have htake : (c :: cs).takeWhile Char.isDigit = c :: cs := List.takeWhile_eq_self_iff.mpr hs
  have hsplit : splitSign ((c :: cs).dropWhile isSpace) = (false, c :: cs) := by
    rw [List.dropWhile_cons, isSpace_digit hc, if_neg Bool.false_ne_true]
    exact splitSign_digit hc cs
  have hlow : intMin ≤ (Nat.ofDigitChars 10 (c :: cs) 0 : ℤ) := le_trans (by decide) (Int.natCast_nonneg _)
  simp only [stoi, hsplit, htake, signed, Bool.false_eq_true, if_false, reduceCtorEq, hlow, true_and]

/-- A tree without content for the translator has no other text than `<EOF>`s. -/
theorem getText_blank {t : ParseTree} (h : t.isBlank = true) :
    t.getText = (List.replicate t.eofs eofText).flatten := by
  induction t using ParseTree.induction with
  | terminal text =>
    have ht : text = eofText := by simpa [ParseTree.isBlank] using h
    simp [ParseTree.getText, ParseTree.eofs, ht]
  | rule ctx cs ih =>
    rw [ParseTree.isBlank, Bool.and_eq_true] at h
    have hcs := h.2
    clear h
    rw [ParseTree.getText, ParseTree.eofs]
    induction cs with
    | nil => rfl
    | cons c cs ihs =>
      rw [allBlank, Bool.and_eq_true] at hcs
      have hc := ih c (List.mem_cons_self ..) hcs.1
      have hrest := ihs (fun d hd => ih d (List.mem_cons_of_mem _ hd)) hcs.2
      rw [getTexts, allEofs, List.replicate_add, List.flatten_append, hc, hrest]

/-- So it is empty or a single `<EOF>` exactly when there are not two. -/
theorem getTexts_blank_iff {cs : List ParseTree} (h : allBlank cs = true) :
    getTexts cs = eofText ∨ getTexts cs = [] ↔ allEofs cs ≤ 1 := by
  have hplain : (ParseTree.rule ⟨0,false,false,false,.kDataDefault,.kScopeDefault⟩ cs).isBlank = true := by
    simpa [ParseTree.isBlank, RuleContext.isLeafLiteral] using h
  have htext := getText_blank hplain
  rw [ParseTree.getText, ParseTree.eofs] at htext
  have hlength : (getTexts cs).length = allEofs cs * 5 := by
    rw [htext, List.length_flatten, List.map_replicate, List.sum_replicate]
    rfl
  constructor
  · rintro (heq | heq)
    · have h5 : (getTexts cs).length = 5 := by rw [heq]; rfl
      omega
    · have h0 : (getTexts cs).length = 0 := by rw [heq]; rfl
      omega
  · intro hle
    have hcases : allEofs cs = 0 ∨ allEofs cs = 1 := by omega
    rcases hcases with hzero | hone
    · rw [htext, hzero]
      exact .inr rfl
    · rw [htext, hone]
      exact .inl rfl

theorem hasContent_iff {t : ParseTree} : t.hasContent = false ↔ t.isBlank = true ∧ t.hasFloat = false := by
  induction t using ParseTree.induction with
  | terminal text => simp [ParseTree.hasContent, ParseTree.isBlank, ParseTree.hasFloat]
  | rule ctx cs ih =>
    have hcs : anyContent cs = false ↔ allBlank cs = true ∧ anyFloat cs = false := by
      induction cs with
      | nil => simp [anyContent, allBlank, anyFloat]
      | cons c cs ihs =>
        have hc := ih c (List.mem_cons_self ..)
        have hrest := ihs fun d hd => ih d (List.mem_cons_of_mem _ hd)
        simp only [anyContent, allBlank, anyFloat, Bool.or_eq_false_iff, Bool.and_eq_true, hc, hrest]
        tauto
    simp only [ParseTree.hasContent, ParseTree.isBlank, ParseTree.hasFloat, Bool.or_eq_false_iff, hcs,
      RuleContext.isLiteral, RuleContext.isLeafLiteral, Bool.and_eq_true, Bool.not_eq_true']
    tauto

section
variable {uninit : StatementID → ScopeID}

theorem translateChildren_ok_iff {cs : List ParseTree} (ih : ∀ ctx gcs, .rule ctx gcs ∈ cs → ∀ id,
      (∃ p, translateNode uninit (.rule ctx gcs) id = .ok p) ↔ (ParseTree.rule ctx gcs).Survives)
    (id : StatementID) : (∃ p, translateChildren uninit cs id = .ok p) ↔ AllSurvive cs := by
  induction cs generalizing id with
  | nil => simp [translateChildren, AllSurvive]
  | cons c cs ihs =>
    have hrest := ihs fun ctx gcs hc => ih ctx gcs (List.mem_cons_of_mem _ hc)
    cases c with
    | terminal text =>
      rw [AllSurvive, ParseTree.Survives, true_and, ← hrest id, translateChildren]
      cases translateChildren uninit cs id <;> simp
    | rule ctx gcs =>
      rw [AllSurvive, ← ih ctx gcs (List.mem_cons_self ..) id, translateChildren]
      cases hc : translateNode uninit (.rule ctx gcs) id with
      | error f => simp
      | ok p =>
        rw [← hrest p.2]
        cases hrun : translateChildren uninit cs p.2 with
        | error f => simp [hrun]
        | ok q => simp [hrun]

/-- A context is translated exactly when nothing in it stops the translation. -/
theorem translateNode_ok_iff {ctx : RuleContext} {cs : List ParseTree}
    (hints : (ParseTree.rule ctx cs).IntsDecimal) (id : StatementID) :
    (∃ p, translateNode uninit (.rule ctx cs) id = .ok p) ↔ (ParseTree.rule ctx cs).Survives := by
  generalize ht : ParseTree.rule ctx cs = t at *
  induction t using ParseTree.induction generalizing ctx cs id with
  | terminal text => cases ht
  | rule ctx cs ih =>
    cases ht
    rw [ParseTree.IntsDecimal, allIntsDecimal_iff] at hints
    obtain ⟨hint,hall⟩ := hints
    have hchildren : (∃ p, translateChildren uninit cs id = .ok p) ↔ AllSurvive cs :=
      translateChildren_ok_iff (fun ctx gcs hc id => ih _ hc id rfl (hall _ hc)) id
    rw [ParseTree.Survives, translateNode]
    split
    · simp
    split
    · rename_i hi
      obtain ⟨hne,hdigits⟩ := hint hi
      rw [stoi_digits hne hdigits]
      by_cases hfit : (Nat.ofDigitChars 10 (getTexts cs) 0 : ℤ) ≤ intMax
      · simp [hfit]
      · simp [hfit]
    rw [← hchildren]
    split
    · rename_i hnil
      rw [List.isEmpty_iff] at hnil
      subst hnil
      simp [translateChildren, allEofs]
    cases hrun : translateChildren uninit cs id with
    | error f => simp
    | ok p =>
      obtain ⟨stk,id'⟩ := p
      have hblank : allBlank cs = true ↔ stk = [] :=
        (translateChildren_items hrun).allBlank fun c _ _ _ _ hc => isBlank_iff_null hc
      by_cases hstk : stk = []
      · have heofs := getTexts_blank_iff (hblank.mpr hstk)
        by_cases htext : getTexts cs = eofText ∨ getTexts cs = []
        · simp [hstk, htext, heofs.mp htext]
        · simp [hstk, htext, hblank.mpr hstk, mt heofs.mpr htext]
      · obtain ⟨t,id₂,hfold,_⟩ := foldItems_ok uninit ctx hstk id'
        simp [hstk, hfold, hblank]

/-- A parse tree is translated without a failure, and to null exactly when there
is nothing in it, if and only if nothing stops the translation and the tree does
not owe all its content to float literals. -/
theorem translateNode_total_iff {ctx : RuleContext} {cs : List ParseTree}
    (hints : (ParseTree.rule ctx cs).IntsDecimal) (id : StatementID) :
    (∃ r id', translateNode uninit (.rule ctx cs) id = .ok (r,id') ∧
      (r = none ↔ (ParseTree.rule ctx cs).hasContent = false)) ↔
    (ParseTree.rule ctx cs).Survives ∧
      ((ParseTree.rule ctx cs).isBlank = true → (ParseTree.rule ctx cs).hasFloat = false) := by
  have hok : (∃ p, translateNode uninit (.rule ctx cs) id = .ok p) ↔ (ParseTree.rule ctx cs).Survives :=
    translateNode_ok_iff hints id
  rw [← hok]
  constructor
  · rintro ⟨r,id',hrun,hnull⟩
    refine ⟨⟨_,hrun⟩,fun hblank => ?_⟩
    exact (hasContent_iff.mp (hnull.mp ((isBlank_iff_null hrun).mp hblank))).2
  · rintro ⟨⟨⟨r,id'⟩,hrun⟩,hfloat⟩
    refine ⟨r,id',hrun,?_⟩
    rw [hasContent_iff, ← isBlank_iff_null hrun]
    exact ⟨fun hblank => ⟨hblank,hfloat hblank⟩,And.left⟩

end

def intProgram (text : Str) : List ParseTree :=
  [.rule ⟨1,false,false,true,.kDataDefault,.kScopeDefault⟩ [.terminal text],.terminal eofText]

def plainContext : RuleContext := ⟨0,false,false,false,.kDataDefault,.kScopeGlobal⟩

theorem intProgram_total : ∃ r id', translateNode id (.rule plainContext (intProgram "42".toList)) 0 = .ok (r,id') ∧
    (r = none ↔ (ParseTree.rule plainContext (intProgram "42".toList)).hasContent = false) := by
  have hints : (ParseTree.rule plainContext (intProgram "42".toList)).IntsDecimal := by
    simp [intProgram, ParseTree.IntsDecimal, AllIntsDecimal, plainContext, getTexts, ParseTree.getText]
  apply (translateNode_total_iff hints 0).mpr
  constructor
  · simp [intProgram, ParseTree.Survives, AllSurvive, plainContext, getTexts, ParseTree.getText, allBlank,
      ParseTree.isBlank, RuleContext.isLeafLiteral]
    decide
  · decide

/-- The literal `2147483648` makes `std::stoi` throw. -/
theorem bigLiteral_throws : ¬ ∀ (uninit : StatementID → ScopeID) (ctx : RuleContext) (cs : List ParseTree)
    (id : StatementID), (ParseTree.rule ctx cs).IntsDecimal →
      ∃ r id', translateNode uninit (.rule ctx cs) id = .ok (r,id') ∧
        (r = none ↔ (ParseTree.rule ctx cs).hasContent = false) := by
  intro h
  have hints : (ParseTree.rule plainContext (intProgram "2147483648".toList)).IntsDecimal := by
    simp [intProgram, ParseTree.IntsDecimal, AllIntsDecimal, plainContext, getTexts, ParseTree.getText]
  obtain ⟨r,id',hrun,_⟩ := h id plainContext (intProgram "2147483648".toList) 0 hints
  have hthrow : translateNode id (.rule plainContext (intProgram "2147483648".toList)) 0 = .error .exception := by
    decide +kernel
  rw [hthrow] at hrun
  cases hrun

end PolyGlot
