import PolyGlot.Antlr.Fold
import PolyGlot.Mutation.Value

set_option autoImplicit false

/-! # A translation up to its ids

The translator passes ids through and looks at none of them: whatever the id
counter and the memory hold, it stops with the same fault or ends with the same
tree without its ids.
-/
namespace PolyGlot

def IM.erase : IM → IM
  | .str s => .str s
  | .ir t => .ir t.erase

def OneIR.erase (o : OneIR) : OneIR := { o with left := o.left.map IR.erase, right := o.right.map IR.erase }

theorem extractOneIR_erase (o : OneIR) (stk : List IM) :
    extractOneIR o.erase (stk.map IM.erase) = ((extractOneIR o stk).1.erase,(extractOneIR o stk).2.map IM.erase) := by
  fun_induction extractOneIR o stk with
  | case1 => rfl
  | case2 o s stk h ih =>
    simp only [List.map_cons, IM.erase, extractOneIR, OneIR.erase, Option.isNone_map, if_pos h]
    exact ih
  | case3 o s stk h h₁ ih =>
    simp only [List.map_cons, IM.erase, extractOneIR, OneIR.erase, Option.isNone_map, if_neg h, if_pos h₁]
    exact ih
  | case4 o s stk h h₁ h₂ ih =>
    simp only [List.map_cons, IM.erase, extractOneIR, OneIR.erase, Option.isNone_map, if_neg h, if_neg h₁, if_pos h₂]
    exact ih
  | case5 o s stk h h₁ h₂ =>
    simp only [List.map_cons, IM.erase, extractOneIR, OneIR.erase, Option.isNone_map, if_neg h, if_neg h₁, if_neg h₂]
  | case6 o t stk h ih =>
    simp only [List.map_cons, IM.erase, extractOneIR, OneIR.erase, Option.isNone_map, if_pos h]
    exact ih
  | case7 o t stk h h₁ ih =>
    simp only [List.map_cons, IM.erase, extractOneIR, OneIR.erase, Option.isNone_map, if_neg h, if_pos h₁]
    exact ih
  | case8 o t stk h h₁ =>
    simp only [List.map_cons, IM.erase, extractOneIR, OneIR.erase, Option.isNone_map, if_neg h, if_neg h₁]

/-- Two computations that agree in what is looked at. -/
theorem map_eq_map_iff {ε α β γ : Type} {f : α → γ} {g : β → γ} {x : Except ε α} {y : Except ε β} :
    x.map f = y.map g ↔ (∃ e, x = .error e ∧ y = .error e) ∨ ∃ a b, x = .ok a ∧ y = .ok b ∧ f a = g b := by
  cases x <;> cases y <;> simp [Except.map, eq_comm]

section
variable {uninit uninit' : StatementID → ScopeID}

theorem erase_toIR {type : IRType} {o o' : OneIR} (h : o.erase = o'.erase) (id id' : StatementID) :
    IR.erase (o.toIR uninit type id) = IR.erase (o'.toIR uninit' type id') := by
  have hget : ∀ {l l' : Option IR}, l.map IR.erase = l'.map IR.erase →
      IR.erase (l.getD .nil) = IR.erase (l'.getD .nil) := by
    intro l l' h
    cases l <;> cases l'
    · rfl
    · cases h
    · cases h
    · exact Option.some.inj h
  simp only [OneIR.erase, OneIR.mk.injEq] at h
  obtain ⟨hpre,hmiddle,hsuffix,hleft,hright⟩ := h
  simp only [OneIR.toIR, IR.ofOperator, erase_node, hpre, hmiddle, hsuffix, hget hleft, hget hright]
  rfl

theorem foldStep_erase {type : IRType} {stk stk' : List IM} (h : stk.map IM.erase = stk'.map IM.erase)
    (id id' : StatementID) :
    (foldStep uninit type stk id).map IM.erase = (foldStep uninit' type stk' id').map IM.erase := by
  have hextract : extractOneIR (OneIR.erase {}) (stk.map IM.erase) =
      extractOneIR (OneIR.erase {}) (stk'.map IM.erase) := by rw [h]
  rw [extractOneIR_erase, extractOneIR_erase, Prod.mk.injEq] at hextract
  obtain ⟨hslots,hrest⟩ := hextract
  have hnil : (extractOneIR {} stk).2 = [] ↔ (extractOneIR {} stk').2 = [] := by
    rw [← List.map_eq_nil_iff (f := IM.erase), hrest, List.map_eq_nil_iff]
  simp only [foldStep, List.map_cons, hrest, IM.erase, hnil]
  rw [erase_toIR hslots id id']

theorem foldLoop_erase {type : IRType} {stk stk' : List IM} (h : stk.map IM.erase = stk'.map IM.erase) (fuel : ℕ)
    (id id' : StatementID) : (foldLoop uninit type fuel stk id).map (fun r => r.1.map IM.erase) =
      (foldLoop uninit' type fuel stk' id').map (fun r => r.1.map IM.erase) := by
  induction fuel generalizing stk stk' id id' with
  | zero => rfl
  | succ fuel ih =>
    have hstep : (foldStep uninit type stk id).map IM.erase = (foldStep uninit' type stk' id').map IM.erase :=
      foldStep_erase h id id'
    have hlength : (foldStep uninit type stk id).length = (foldStep uninit' type stk' id').length := by
      simpa using congrArg List.length hstep
    simp only [foldLoop, hlength]
    split
    · exact ih hstep _ _
    · simp only [Option.map_some, hstep]

theorem erase_decorate (ctx : RuleContext) {t t' : IR} (h : t.erase = t'.erase) :
    IR.erase (decorate ctx t) = IR.erase (decorate ctx t') := by
  have hmodify : ∀ (f : IRNode → IRNode), (∀ n, (f n).erase = f n.erase) → ∀ {u u' : IR}, u.erase = u'.erase →
      IR.erase (u.modifyRoot f) = IR.erase (u'.modifyRoot f) := by
    intro f hf u u' hu
    cases u with
    | nil => rw [erase_eq_nil.mp hu.symm]
    | node n l r =>
      cases u' with
      | nil => cases hu
      | node n' l' r' =>
        rw [erase_node, erase_node, BinaryTree.node.injEq] at hu
        simp only [IR.modifyRoot, erase_node, hf, hu.1, hu.2.1, hu.2.2]
  have hdata : IR.erase (t.setDataType ctx.dataType) = IR.erase (t'.setDataType ctx.dataType) :=
    hmodify ({ · with dataType := ctx.dataType }) (fun _ => rfl) h
  simp only [decorate]
  split
  · exact hmodify ({ · with scopeType := ctx.scopeType }) (fun _ => rfl) hdata
  · exact hdata

def withoutIds (r : Except Fault (Option IR × StatementID)) : Except Fault (Option IR) :=
  r.map fun p => p.1.map IR.erase

theorem foldItems_erase (ctx : RuleContext) {stk stk' : List IM} (hstk : stk ≠ [])
    (h : stk.map IM.erase = stk'.map IM.erase) (id id' : StatementID) :
    withoutIds (foldItems uninit ctx stk id) = withoutIds (foldItems uninit' ctx stk' id') := by
  have hstk' : stk' ≠ [] := by
    intro hnil
    rw [hnil, List.map_nil, List.map_eq_nil_iff] at h
    exact hstk h
  have hlength : stk.length = stk'.length := by simpa using congrArg List.length h
  obtain ⟨t,i,hrun,-⟩ := foldLoop_folded uninit ctx.ruleIndex hstk id le_rfl
  obtain ⟨t',i',hrun',-⟩ := foldLoop_folded uninit' ctx.ruleIndex hstk' id' le_rfl
  have hsame : (foldLoop uninit ctx.ruleIndex stk.length stk id).map (fun r => r.1.map IM.erase) =
      (foldLoop uninit' ctx.ruleIndex stk'.length stk' id').map (fun r => r.1.map IM.erase) :=
    hlength ▸ foldLoop_erase h stk.length id id'
  rw [hrun, hrun'] at hsame
  simp only [Option.map_some, List.map_cons, List.map_nil, IM.erase, Option.some.injEq, List.cons.injEq, and_true,
    IM.ir.injEq] at hsame
  simp only [foldItems, hrun, hrun', withoutIds, Except.map, Option.map_some, erase_decorate ctx hsame]

theorem translateChildren_erase {cs : List ParseTree} (ih : ∀ ctx gcs, .rule ctx gcs ∈ cs → ∀ id id',
      withoutIds (translateNode uninit (.rule ctx gcs) id) = withoutIds (translateNode uninit' (.rule ctx gcs) id'))
    (id id' : StatementID) : (translateChildren uninit cs id).map (fun r => r.1.map IM.erase) =
      (translateChildren uninit' cs id').map (fun r => r.1.map IM.erase) := by
  induction cs generalizing id id' with
  | nil => rfl
  | cons c cs ihs =>
    have hrest := ihs fun ctx gcs hc => ih ctx gcs (List.mem_cons_of_mem _ hc)
    rw [map_eq_map_iff]
    cases c with
    | terminal text =>
      simp only [translateChildren]
      rcases map_eq_map_iff.mp (hrest id id') with ⟨f,h,h'⟩ | ⟨p,q,h,h',hstk⟩
      · exact .inl ⟨f,by rw [h],by rw [h']⟩
      · refine .inr ⟨_,_,by rw [h],by rw [h'],?_⟩
        dsimp only
        split
        · exact hstk
        · rw [List.map_cons, List.map_cons, hstk]
    | rule ctx gcs =>
      simp only [translateChildren]
      rcases map_eq_map_iff.mp (ih ctx gcs (List.mem_cons_self ..) id id') with ⟨f,h,h'⟩ | ⟨⟨t,i⟩,⟨t',i'⟩,h,h',htree⟩
      · exact .inl ⟨f,by rw [h],by rw [h']⟩
      · simp only [h, h']
        rcases map_eq_map_iff.mp (hrest i i') with ⟨f,hr,hr'⟩ | ⟨p,q,hr,hr',hstk⟩
        · exact .inl ⟨f,by rw [hr],by rw [hr']⟩
        · refine .inr ⟨_,_,by rw [hr],by rw [hr'],?_⟩
          cases t with
          | none =>
            cases t' with
            | none => exact hstk
            | some t' => cases htree
          | some t =>
            cases t' with
            | none => cases htree
            | some t' =>
              simp only [List.map_cons, IM.erase, hstk]
              rw [Option.some.inj htree]

theorem translateNode_erase (t : ParseTree) (id id' : StatementID) :
    withoutIds (translateNode uninit t id) = withoutIds (translateNode uninit' t id') := by
  induction t using ParseTree.induction generalizing id id' with
  | terminal text => rfl
  | rule ctx cs ih =>
    simp only [translateNode]
    have hliteral : ∀ data, withoutIds (.ok (some (decorate ctx (IR.ofData uninit ctx.ruleIndex data id)),id + 1)) =
        withoutIds (.ok (some (decorate ctx (IR.ofData uninit' ctx.ruleIndex data id')),id' + 1)) := by
      intro data
      have hleaf : IR.erase (IR.ofData uninit ctx.ruleIndex data id) = IR.erase (IR.ofData uninit' ctx.ruleIndex data id') := rfl
      simp only [withoutIds, Except.map, Option.map_some, erase_decorate ctx hleaf]
    split
    · exact hliteral _
    split
    · split
      · rfl
      · exact hliteral _
    split
    · rfl
    have hchildren : (translateChildren uninit cs id).map (fun r => r.1.map IM.erase) =
        (translateChildren uninit' cs id').map (fun r => r.1.map IM.erase) :=
      translateChildren_erase (fun ctx gcs hc => ih _ hc) id id'
    rcases map_eq_map_iff.mp hchildren with ⟨f,h,h'⟩ | ⟨⟨stk,i⟩,⟨stk',i'⟩,h,h',hstk⟩
    · rw [h, h']
    · simp only [h, h']
      cases stk with
      | nil =>
        obtain rfl := List.map_eq_nil_iff.mp hstk.symm
        simp only [List.isEmpty_nil, if_true]
        split
        · rfl
        · rfl
      | cons a stk =>
        have hne : stk' ≠ [] := by
          rintro rfl
          cases hstk
        rw [if_neg (by simp), if_neg (by simpa using hne)]
        exact foldItems_erase ctx (List.cons_ne_nil a stk) hstk i i'

end

def translation (t : ParseTree) : Except Fault (Option IR) := withoutIds (translateNode (fun _ => 0) t 0)

theorem withoutIds_translateNode (uninit : StatementID → ScopeID) (t : ParseTree) (id : StatementID) :
    withoutIds (translateNode uninit t id) = translation t := translateNode_erase t id 0

end PolyGlot
