import PolyGlot.IR.Text

set_option autoImplicit false

/-! # What trimming does to a text

`trim_string` reads and writes one buffer. What it lets out depends only on the
last character it wrote, where the start of the text counts as a space.
-/
namespace PolyGlot

structure TrimState where
  res : Str
  idx : ℕ
  count : ℕ
  expectSpace : Bool

def lookAhead (res : Str) (i : ℕ) : Str :=
  if breaksLine (res.getD i default) && i ≠ res.length - 1 && res.getD (i + 1) default = ' ' then
    res.set (i + 1) '\n'
  else res

def trimStep (st : TrimState) (i : ℕ) : TrimState :=
  let res := lookAhead st.res i
  let c := res.getD i default
  if c = ' ' then
    if st.expectSpace = false then { st with res := res }
    else ⟨res.set st.idx c,st.idx + 1,st.count + 1,false⟩
  else ⟨res.set st.idx c,st.idx + 1,st.count + 1,true⟩

/-- `trim_string` as the program runs it. -/
def trimInPlace (s : Str) : Str :=
  let st := (List.range s.length).foldl trimStep ⟨s,0,0,false⟩
  st.res.take st.count

/-- The flag `brk` of `trimLoop` is the rewriting of the character ahead. -/
theorem trimLoop_brk (expectSpace : Bool) (s : Str) : trimLoop expectSpace true s =
    trimLoop expectSpace false (if s.head? = some ' ' then '\n' :: s.tail else s) := by
  cases s with
  | nil => rfl
  | cons c s =>
    by_cases hc : c = ' '
    · simp [trimLoop, hc, breaksLine]
    · simp [trimLoop, hc]

structure TrimInv (s : Str) (st : TrimState) (i : ℕ) : Prop where
  length : st.res.length = s.length
  count : st.count = st.idx
  idx : st.idx ≤ i
  trimmed : st.res.take st.idx ++ trimLoop st.expectSpace false (st.res.drop i) = trimString s

theorem TrimInv.start (s : Str) : TrimInv s ⟨s,0,0,false⟩ 0 := ⟨rfl,rfl,le_rfl,by simp [trimString]⟩

theorem lookAhead_length (res : Str) (i : ℕ) : (lookAhead res i).length = res.length := by
  unfold lookAhead
  split <;> simp

theorem lookAhead_take (res : Str) {i k : ℕ} (hk : k ≤ i + 1) : (lookAhead res i).take k = res.take k := by
  unfold lookAhead
  split
  · exact List.take_set_of_le hk
  · rfl

theorem lookAhead_getElem? (res : Str) (i : ℕ) : (lookAhead res i)[i]? = res[i]? := by
  unfold lookAhead
  split
  · exact List.getElem?_set_ne (by omega)
  · rfl

theorem lookAhead_drop {res : Str} {i : ℕ} {c : Char} (hc : res[i]? = some c) (e : Bool) :
    trimLoop e false ((lookAhead res i).drop (i + 1)) = trimLoop e (breaksLine c) (res.drop (i + 1)) := by
  have hi : i < res.length := (List.getElem?_eq_some_iff.mp hc).1
  unfold lookAhead
  rw [List.getD_eq_getElem?_getD, hc, Option.getD_some]
  cases hb : breaksLine c with
  | false => simp
  | true =>
    rw [trimLoop_brk, List.head?_drop]
    by_cases hlast : i + 1 < res.length
    · obtain ⟨d,hd⟩ : ∃ d, res[i + 1]? = some d := ⟨res[i + 1],List.getElem?_eq_getElem hlast⟩
      by_cases hspace : d = ' '
      · have hset : (res.set (i + 1) '\n').drop (i + 1) = '\n' :: (res.drop (i + 1)).tail := by
          rw [List.drop_eq_getElem_cons (by simpa using hlast), List.getElem_set_self, List.tail_drop,
            List.drop_set_of_lt (by omega)]
        have hne : i ≠ res.length - 1 := by omega
        simp [List.getD_eq_getElem?_getD, hd, hspace, hne, hset]
      · simp [hd, hspace]
    · have hnone : res[i + 1]? = none := List.getElem?_eq_none (by omega)
      have hend : i = res.length - 1 := by omega
      simp [hnone, hend.symm]

theorem TrimInv.step {s : Str} {st : TrimState} {i : ℕ} (h : TrimInv s st i) (hi : i < s.length) :
    TrimInv s (trimStep st i) (i + 1) := by
  obtain ⟨res,idx,count,e⟩ := st
  obtain ⟨hlength,hcount,hidx,htrimmed⟩ := h
  dsimp only at hlength hcount hidx htrimmed
  subst hcount
  obtain ⟨c,hc⟩ : ∃ c, res[i]? = some c := ⟨res[i],List.getElem?_eq_getElem (by omega)⟩
  have hread : (lookAhead res i).getD i default = c := by
    rw [List.getD_eq_getElem?_getD, lookAhead_getElem?, hc, Option.getD_some]
  have hdrop : res.drop i = c :: res.drop (i + 1) := by
    rw [List.drop_eq_getElem_cons (by omega), (List.getElem?_eq_some_iff.mp hc).2]
  have hwrite : ((lookAhead res i).set count c).take (count + 1) = res.take count ++ [c] := by
    rw [List.take_add_one, List.take_set_of_le le_rfl, List.getElem?_set_self (by rw [lookAhead_length]; omega),
      lookAhead_take res (by omega)]
    rfl
  have hrest : ((lookAhead res i).set count c).drop (i + 1) = (lookAhead res i).drop (i + 1) :=
    List.drop_set_of_lt (by omega)
  rw [hdrop] at htrimmed
  unfold trimStep
  dsimp only
  rw [hread]
  by_cases hspace : c = ' '
  · subst hspace
    cases e with
    | false =>
      refine ⟨?_,rfl,Nat.le_succ_of_le hidx,?_⟩
      · simpa [lookAhead_length] using hlength
      · rw [← htrimmed]
        simp [lookAhead_take res (show count ≤ i + 1 by omega), lookAhead_drop hc, trimLoop, breaksLine]
    | true =>
      refine ⟨?_,rfl,by simpa using hidx,?_⟩
      · simpa [lookAhead_length] using hlength
      · rw [← htrimmed]
        simp [hwrite, hrest, lookAhead_drop hc, trimLoop, breaksLine]
  · rw [if_neg hspace]
    refine ⟨?_,rfl,by simpa using hidx,?_⟩
    · simpa [lookAhead_length] using hlength
    · rw [← htrimmed]
      simp [hwrite, hrest, lookAhead_drop hc, trimLoop, hspace]

/-- The loop over the buffer lets out what `trimString` does. -/
theorem trimInPlace_eq (s : Str) : trimInPlace s = trimString s := by
  have hrun : ∀ n ≤ s.length, TrimInv s ((List.range n).foldl trimStep ⟨s,0,0,false⟩) n := by
    intro n hn
    induction n with
    | zero => exact .start s
    | succ n ih =>
      rw [List.range_succ, List.foldl_append]
      exact (ih (by omega)).step (by omega)
  obtain ⟨hlength,hcount,_,htrimmed⟩ := hrun s.length le_rfl
  unfold trimInPlace
  dsimp only
  rw [hcount, ← htrimmed, List.drop_eq_nil_of_le (by omega), trimLoop, List.append_nil]

/-- What is let out when `a` was written last; the start counts as a space. -/
def trimAfter (a : Char) : Str → Str
  | [] => []
  | c :: s =>
    if c ≠ ' ' then c :: trimAfter c s
    else if breaksLine a then '\n' :: trimAfter '\n' s
    else if a = ' ' then trimAfter ' ' s
    else ' ' :: trimAfter ' ' s

@[simp] theorem breaksLine_space : breaksLine ' ' = false := by decide
@[simp] theorem breaksLine_newline : breaksLine '\n' = false := by decide

theorem trimLoop_eq (a : Char) (s : Str) : trimLoop (a ≠ ' ') (breaksLine a) s = trimAfter a s := by
  induction s generalizing a with
  | nil => rfl
  | cons c s ih =>
    have hnewline : trimLoop true false s = trimAfter '\n' s := by simpa using ih '\n'
    have hspace : trimLoop false false s = trimAfter ' ' s := by simpa using ih ' '
    rw [trimAfter, trimLoop]
    by_cases hc : c = ' '
    · by_cases hbreak : breaksLine a
      · simp [hc, hbreak, hnewline]
      · by_cases ha : a = ' '
        · simp [hc, ha, hspace]
        · simp [hc, ha, hbreak, hspace]
    · have hnext := ih c
      simp only [ne_eq, hc, not_false_eq_true, decide_true] at hnext
      simp [hc, hnext]

theorem trimString_eq (s : Str) : trimString s = trimAfter ' ' s := trimLoop_eq ' ' s

def MayFollow (a b : Char) : Prop := b = ' ' → a ≠ ' ' ∧ breaksLine a = false

theorem trimAfter_chain (a : Char) (s : Str) : (a :: trimAfter a s).IsChain MayFollow := by
  induction s generalizing a with
  | nil => exact List.isChain_singleton a
  | cons c s ih =>
    rw [trimAfter]
    split
    · rename_i hc
      exact (ih c).cons_cons fun h => absurd h hc
    split
    · exact (ih '\n').cons_cons fun h => by cases h
    split
    · rename_i ha
      rw [ha]
      exact ih ' '
    · rename_i hbreak ha
      exact (ih ' ').cons_cons fun _ => ⟨ha,by simpa using hbreak⟩

theorem trimAfter_fixed {a : Char} {s : Str} (h : (a :: s).IsChain MayFollow) : trimAfter a s = s := by
  induction s generalizing a with
  | nil => rfl
  | cons c s ih =>
    rw [List.isChain_cons_cons] at h
    rw [trimAfter]
    by_cases hc : c = ' '
    · subst hc
      obtain ⟨ha,hbreak⟩ := h.1 rfl
      simp [ha, hbreak, ih h.2]
    · simp [hc, ih h.2]

def inked (c : Char) : Bool := c ≠ ' ' && c ≠ '\n'

theorem trimAfter_inked (a : Char) (s : Str) : (trimAfter a s).filter inked = s.filter inked := by
  induction s generalizing a with
  | nil => rfl
  | cons c s ih =>
    rw [trimAfter]
    by_cases hc : c = ' '
    · have hspace : inked ' ' = false := by decide
      have hnewline : inked '\n' = false := by decide
      rw [hc, List.filter_cons_of_neg (by simp [hspace])]
      by_cases hbreak : breaksLine a
      · simp [hbreak, hnewline, ih]
      · by_cases ha : a = ' '
        · simp [ha, breaksLine, ih]
        · simp [ha, hbreak, hspace, ih]
    · simp [hc, List.filter_cons, ih]

def bonds (before : Bool) : Str → List Bool
  | [] => []
  | c :: s => if inked c then before :: bonds true s else bonds false s

theorem trimAfter_bonds {a : Char} {before : Bool} (h : before → a ≠ ' ') (s : Str) :
    bonds before (trimAfter a s) = bonds before s := by
  have hspace : inked ' ' = false := by decide
  have hnewline : inked '\n' = false := by decide
  induction s generalizing a before with
  | nil => rfl
  | cons c s ih =>
    rw [trimAfter]
    by_cases hc : c = ' '
    · have hgap : ∀ d, bonds false (trimAfter d s) = bonds false s := fun d => ih (by simp)
      by_cases hbreak : breaksLine a
      · simp [hc, hbreak, bonds, hspace, hnewline, hgap]
      · by_cases ha : a = ' '
        · have hbefore : before = false := by simpa [ha] using h
          simp [hc, ha, breaksLine, bonds, hspace, hbefore, hgap]
        · simp [hc, ha, hbreak, bonds, hspace, hgap]
    · have hnext := @ih c true fun _ => hc
      have hgap := @ih c false fun _ => hc
      simp only [ne_eq, hc, not_false_eq_true, if_true, bonds, hnext, hgap]

def adjacent (i j : ℕ) : Bool := j = i + 1

theorem zipWith_findIdxs {m n : ℕ} (h : m < n) (s : Str) :
    List.zipWith adjacent (m :: s.findIdxs inked n) (s.findIdxs inked n) = bonds (n = m + 1) s := by
  induction s generalizing m n with
  | nil => rfl
  | cons c s ih =>
    rw [List.findIdxs_cons, bonds]
    by_cases hc : inked c
    · have hnext := ih (Nat.lt_succ_self n)
      simp [hc, adjacent] at hnext ⊢
      exact hnext
    · have hnext := ih (m := m) (n := n + 1) (by omega)
      have hgap : ¬ n = m := by omega
      simpa [hc, hgap] using hnext

theorem bonds_findIdxs (n : ℕ) (s : Str) :
    List.zipWith adjacent (s.findIdxs inked n) (s.findIdxs inked n).tail = (bonds false s).tail := by
  induction s generalizing n with
  | nil => rfl
  | cons c s ih =>
    rw [List.findIdxs_cons, bonds]
    by_cases hc : inked c
    · have hnext := zipWith_findIdxs (Nat.lt_succ_self n) s
      simpa [hc] using hnext
    · simpa [hc] using ih (n + 1)

/-- Only neighbours in the list of positions can be adjacent. -/
theorem next_of_adjacent {s : Str} {k l i : ℕ} (hk : (s.findIdxs inked)[k]? = some i)
    (hl : (s.findIdxs inked)[l]? = some (i + 1)) : l = k + 1 := by
  obtain ⟨hk,hki⟩ := List.getElem?_eq_some_iff.mp hk
  obtain ⟨hl,hli⟩ := List.getElem?_eq_some_iff.mp hl
  have hsorted := List.pairwise_iff_getElem.mp (@List.pairwise_findIdxs _ s inked 0)
  rcases Nat.lt_trichotomy l (k + 1) with hlt | heq | hgt
  · rcases Nat.lt_or_eq_of_le (Nat.le_of_lt_succ hlt) with hlt | rfl
    · have := hsorted l k hl hk hlt
      omega
    · omega
  · exact heq
  · have h₁ := hsorted k (k + 1) hk (by omega) (by omega)
    have h₂ := hsorted (k + 1) l (by omega) hl hgt
    omega

theorem adjacent_iff {s : Str} {k i j : ℕ} (hi : (s.findIdxs inked)[k]? = some i)
    (hj : (s.findIdxs inked)[k + 1]? = some j) : j = i + 1 ↔ (bonds false s).tail[k]? = some true := by
  rw [← bonds_findIdxs 0, List.getElem?_zipWith, hi, List.getElem?_tail, hj]
  simp [adjacent]

/-- Trimming leaves no space at the start, after a space or after a `;`, `{` or
`}`, keeps the other characters in order and apart or together as they are, and
does nothing to a trimmed text. -/
theorem trimInPlace_normalises (s : Str) :
    (trimInPlace s).head? ≠ some ' ' ∧ ¬ [' ',' '] <:+: trimInPlace s ∧
    (∀ c ∈ [';','{','}'], ¬ [c,' '] <:+: trimInPlace s) ∧
    (trimInPlace s).filter inked = s.filter inked ∧
    (∀ k l i j i' j' : ℕ, ((trimInPlace s).findIdxs inked)[k]? = some i → ((trimInPlace s).findIdxs inked)[l]? = some j →
      (s.findIdxs inked)[k]? = some i' → (s.findIdxs inked)[l]? = some j' → (j = i + 1 ↔ j' = i' + 1)) ∧
    trimInPlace (trimInPlace s) = trimInPlace s := by
  rw [trimInPlace_eq, trimInPlace_eq, trimString_eq, trimString_eq]
  have hchain := trimAfter_chain ' ' s
  have hwithin : ∀ a b, [a,b] <:+: trimAfter ' ' s → MayFollow a b := by
    intro a b h
    have hpair := List.IsChain.infix hchain (h.trans (List.infix_cons (List.infix_refl _)))
    exact (List.isChain_cons_cons.mp hpair).1
  refine ⟨?_,?_,?_,trimAfter_inked ' ' s,?_,trimAfter_fixed hchain⟩
  · intro hhead
    obtain ⟨r,hr⟩ := List.head?_eq_some_iff.mp hhead
    rw [hr, List.isChain_cons_cons] at hchain
    exact (hchain.1 rfl).1 rfl
  · intro h
    exact (hwithin _ _ h rfl).1 rfl
  · intro c hc h
    have hbreak := (hwithin _ _ h rfl).2
    fin_cases hc <;> cases hbreak
  · intro k l i j i' j' hi hj hi' hj'
    have hbonds : bonds false (trimAfter ' ' s) = bonds false s := trimAfter_bonds (by simp) s
    by_cases hl : l = k + 1
    · subst hl
      rw [adjacent_iff hi hj, adjacent_iff hi' hj', hbonds]
    · constructor
      · intro h
        exact absurd (next_of_adjacent hi (h ▸ hj)) hl
      · intro h
        exact absurd (next_of_adjacent hi' (h ▸ hj')) hl

end PolyGlot
