import PolyGlot.IR.Trim

set_option autoImplicit false

/-! # What a rendering makes of the tokens

`ToStringImpl` puts single spaces between pieces of text, some of them empty.
Trimming keeps the pieces apart and verbatim unless it finds a space to drop or
to rewrite in one of them.
-/
namespace PolyGlot

def Gap (w : Str) : Prop := ∀ c ∈ w, c = ' ' ∨ c = '\n'

/-- The tokens in order, each followed by a gap that only the last may leave out. -/
inductive Spaced : List Str → Str → Prop
  | nil : Spaced [] []
  | last (t : Str) {w : Str} (hw : Gap w) : Spaced [t] (t ++ w)
  | cons (t : Str) {u w r : Str} {ts : List Str} (hw : Gap w) (hne : w ≠ []) (h : Spaced (u :: ts) r) :
      Spaced (t :: u :: ts) (t ++ (w ++ r))

def endsBreak (t : Str) : Bool := t.getLast?.any breaksLine

/-- No token has a space that trimming would drop or rewrite: inside, at the
start of the text, before the space that follows it, or after one. -/
structure Trimmed (ts : List Str) : Prop where
  inside : ∀ t ∈ ts, t.IsChain MayFollow
  first : ∀ t, ts.head? = some t → t.head? ≠ some ' '
  between : ts.IsChain fun t u => t.getLast? ≠ some ' ' ∧ (u.head? = some ' ' → endsBreak t)

def spread : List Str → Str
  | [] => []
  | [p] => p
  | p :: q :: ps => p ++ ' ' :: spread (q :: ps)

theorem spread_append {qs : List Str} (hqs : qs ≠ []) (ps : List Str) :
    spread (ps ++ qs) = ps.flatMap (· ++ [' ']) ++ spread qs := by
  induction ps with
  | nil => rfl
  | cons p ps ih =>
    cases hrest : ps ++ qs with
    | nil => exact absurd (List.append_eq_nil_iff.mp hrest).2 hqs
    | cons q rest =>
      rw [hrest] at ih
      simp [hrest, spread, ih]

theorem spread_space {ps : List Str} (hps : ps ≠ []) : spread ps ++ [' '] = ps.flatMap (· ++ [' ']) := by
  induction ps with
  | nil => exact absurd rfl hps
  | cons p ps ih =>
    cases ps with
    | nil => simp [spread]
    | cons q ps =>
      have hrest := ih (by simp)
      rw [spread, List.flatMap_cons, ← hrest]
      simp

namespace IR

def opPieces (o : Option IROperator) (field : IROperator → Str) : List Str :=
  match o with
  | none => []
  | some op => [field op]

def pieces : IR → List Str
  | .nil => [[]]
  | .node n l r =>
    if n.containData then [dataText n.data]
    else opPieces n.op IROperator.opPrefix ++ (if l = .nil then [] else pieces l) ++
      opPieces n.op IROperator.opMiddle ++ (if r = .nil then [] else pieces r) ++
      [opText n.op IROperator.opSuffix []]

theorem pieces_ne_nil (t : IR) : t.pieces ≠ [] := by
  cases t with
  | nil => simp [pieces]
  | node n l r =>
    rw [pieces]
    split <;> simp

theorem opText_pieces (o : Option IROperator) (field : IROperator → Str) :
    opText o field [' '] = (opPieces o field).flatMap (· ++ [' ']) := by
  cases o <;> simp [opText, opPieces]

theorem toStringImpl_eq (t : IR) : t.toStringImpl = spread t.pieces := by
  induction t with
  | nil => rfl
  | node n l r ihl ihr =>
    have hchild : ∀ u : IR, u.toStringImpl = spread u.pieces →
        (if u = .nil then [] else u.toStringImpl ++ [' ']) =
          (if u = .nil then [] else u.pieces).flatMap (· ++ [' ']) := by
      intro u hu
      split
      · rfl
      · rw [hu, spread_space u.pieces_ne_nil]
    rw [toStringImpl, pieces]
    split
    · rfl
    · rw [spread_append (List.cons_ne_nil _ _), hchild l ihl, hchild r ihr, opText_pieces, opText_pieces]
      simp [spread, opText]

theorem skipEmpty_pieces (t : IR) : skipEmpty t.pieces = t.tokens := by
  induction t with
  | nil => rfl
  | node n l r ihl ihr =>
    have hop : ∀ field, skipEmpty (opPieces n.op field) = opTokens n.op field := by
      intro field
      cases n.op <;> rfl
    have hsuffix : skipEmpty [opText n.op IROperator.opSuffix []] = opTokens n.op IROperator.opSuffix := by
      cases n.op <;> simp [opText, opTokens]
    have hchild : ∀ u : IR, skipEmpty u.pieces = u.tokens →
        skipEmpty (if u = .nil then [] else u.pieces) = u.tokens := by
      intro u hu
      split
      · rename_i hnil
        rw [hnil]
        rfl
      · exact hu
    rw [pieces, tokens]
    split
    · rfl
    · simp only [skipEmpty_append, hop, hsuffix, hchild l ihl, hchild r ihr]

end IR

theorem trimAfter_append (a : Char) (s x : Str) :
    trimAfter a (s ++ x) = trimAfter a s ++ trimAfter ((trimAfter a s).getLastD a) x := by
  induction s generalizing a with
  | nil => rfl
  | cons c s ih =>
    rw [List.cons_append, trimAfter, trimAfter]
    split
    · rw [ih, List.cons_append, List.getLastD_cons]
    split
    · rw [ih, List.cons_append, List.getLastD_cons]
    split
    · rename_i ha
      rw [ih, ha]
    · rw [ih, List.cons_append, List.getLastD_cons]

/-- Only after a character that breaks the line a second space counts. -/
theorem trimAfter_space_space {a : Char} (ha : breaksLine a = false) (s : Str) :
    trimAfter a (' ' :: ' ' :: s) = trimAfter a (' ' :: s) := by
  by_cases hspace : a = ' '
  · simp [trimAfter, hspace]
  · simp [trimAfter, ha, hspace]

theorem gap_cons {c : Char} {w : Str} (hc : c = ' ' ∨ c = '\n') (hw : Gap w) : Gap (c :: w) := by
  intro d hd
  rcases List.mem_cons.mp hd with rfl | hd
  · exact hc
  · exact hw d hd

theorem Spaced.eq_nil {r : Str} (h : Spaced [] r) : r = [] := by
  cases h
  rfl

/-- A token and what is let out after it. -/
theorem Spaced.token (t : Str) {ts : List Str} {w r : Str} (hw : Gap w) (h : Spaced ts r) (hne : ts ≠ [] → w ≠ []) :
    Spaced (t :: ts) (t ++ (w ++ r)) := by
  cases ts with
  | nil =>
    rw [h.eq_nil, List.append_nil]
    exact .last t hw
  | cons u ts => exact .cons t hw (hne (by simp)) h

theorem getLast?_eq_of_ne_nil {t : Str} (ht : t ≠ []) (a : Char) : t.getLast? = some (t.getLastD a) := by
  rw [List.getLastD_eq_getLast?, List.getLast?_eq_some_getLast ht, Option.getD_some]

theorem chain_cons {a : Char} {t : Str} (h : t.IsChain MayFollow) (ha : breaksLine a = false)
    (hfirst : t.head? = some ' ' → a ≠ ' ') : (a :: t).IsChain MayFollow := by
  cases t with
  | nil => exact List.isChain_singleton a
  | cons c t => exact h.cons_cons fun hc => ⟨hfirst (by simp [hc]),ha⟩

theorem head?_spread {ps : List Str} {t : Str} (ht : (skipEmpty ps).head? = some t) (hspace : t.head? = some ' ') :
    ∃ s, spread ps = ' ' :: s := by
  cases ps with
  | nil => cases ht
  | cons p ps =>
    cases p with
    | nil =>
      cases ps with
      | nil => cases ht
      | cons q ps => exact ⟨_,rfl⟩
    | cons c p =>
      obtain rfl : c :: p = t := by simpa [skipEmpty] using ht
      obtain rfl : c = ' ' := by simpa using hspace
      cases ps with
      | nil => exact ⟨_,rfl⟩
      | cons q ps => exact ⟨_,rfl⟩

/-- What comes out while a gap is being written: the rest of it, and the tokens.
The induction is on the pieces; an empty one prolongs the gap. -/
theorem trimAfter_spaced {ps : List Str} {a : Char} (ha : a = ' ' ∨ a = '\n')
    (hinside : ∀ t ∈ skipEmpty ps, t.IsChain MayFollow)
    (hfirst : ∀ t, (skipEmpty ps).head? = some t → t.head? = some ' ' → a = '\n')
    (hbetween : (skipEmpty ps).IsChain fun t u => t.getLast? ≠ some ' ' ∧ (u.head? = some ' ' → endsBreak t)) :
    ∃ w r, trimAfter a (spread ps) = w ++ r ∧ Gap w ∧ Spaced (skipEmpty ps) r ∧ (a = ' ' → w = []) := by
  have hempty : Gap [] := by simp [Gap]
  induction ps generalizing a with
  | nil => exact ⟨[],[],rfl,hempty,.nil,fun _ => rfl⟩
  | cons p ps ih =>
    have hbreak : breaksLine a = false := by rcases ha with rfl | rfl <;> simp
    by_cases hp : p = []
    · subst hp
      have hskip : skipEmpty ([] :: ps) = skipEmpty ps := rfl
      rw [hskip] at hinside hfirst hbetween ⊢
      cases ps with
      | nil => exact ⟨[],[],rfl,hempty,.nil,fun _ => rfl⟩
      | cons q ps =>
        rw [spread, List.nil_append]
        rcases ha with rfl | rfl
        · simpa [trimAfter] using ih (.inl rfl) hinside hfirst hbetween
        · by_cases hhead : ∃ t, (skipEmpty (q :: ps)).head? = some t ∧ t.head? = some ' '
          · -- the space that the token starts with takes the place of this one
            obtain ⟨t,ht,hspace⟩ := hhead
            obtain ⟨s,hs⟩ := head?_spread ht hspace
            obtain ⟨w,r,hrun,hw,hr,_⟩ := ih (.inr rfl) hinside (fun _ _ _ => rfl) hbetween
            refine ⟨w,r,?_,hw,hr,by simp⟩
            rw [← hrun, hs, trimAfter_space_space breaksLine_newline]
          · obtain ⟨w,r,hrun,hw,hr,_⟩ := ih (.inl rfl) hinside (fun t ht h => absurd ⟨t,ht,h⟩ hhead) hbetween
            exact ⟨' ' :: w,r,by simp [trimAfter, hrun],gap_cons (.inl rfl) hw,hr,by simp⟩
    · have hskip : skipEmpty (p :: ps) = p :: skipEmpty ps := by simp [skipEmpty, hp]
      rw [hskip] at hinside hfirst hbetween ⊢
      have hfixed : trimAfter a p = p := by
        apply trimAfter_fixed
        apply chain_cons (hinside p (List.mem_cons_self ..)) hbreak
        intro h heq
        rw [hfirst p rfl h] at heq
        cases heq
      have hrest : ∀ t ∈ skipEmpty ps, t.IsChain MayFollow := fun t ht => hinside t (List.mem_cons_of_mem _ ht)
      have hnext : ∀ t, (skipEmpty ps).head? = some t →
          p.getLast? ≠ some ' ' ∧ (t.head? = some ' ' → endsBreak p) := by
        intro t ht
        obtain ⟨ts,hts⟩ := List.head?_eq_some_iff.mp ht
        rw [hts] at hbetween
        exact (List.isChain_cons_cons.mp hbetween).1
      cases ps with
      | nil =>
        refine ⟨[],p ++ [],?_,hempty,.last p hempty,fun _ => rfl⟩
        simpa [spread] using hfixed
      | cons q ps =>
        have hrun := trimAfter_append a p (' ' :: spread (q :: ps))
        rw [hfixed] at hrun
        have hlast := getLast?_eq_of_ne_nil hp a
        generalize p.getLastD a = b at hrun hlast
        -- what the token's last character makes of the space after it
        have hgap : ∃ w r, trimAfter b (' ' :: spread (q :: ps)) = w ++ r ∧ Gap w ∧
            Spaced (skipEmpty (q :: ps)) r ∧ (skipEmpty (q :: ps) ≠ [] → w ≠ []) := by
          by_cases hb : breaksLine b = true
          · obtain ⟨w,r,hrun,hw,hr,_⟩ := ih (.inr rfl) hrest (fun _ _ _ => rfl) hbetween.of_cons
            exact ⟨'\n' :: w,r,by simp [trimAfter, hb, hrun],gap_cons (.inr rfl) hw,hr,by simp⟩
          · have hnobreak : ¬ endsBreak p := by simpa [endsBreak, hlast] using hb
            obtain ⟨w,r,hrun,hw,hr,_⟩ := ih (.inl rfl) hrest
              (fun t ht h => absurd ((hnext t ht).2 h) hnobreak) hbetween.of_cons
            by_cases hspace : b = ' '
            · refine ⟨w,r,by simp [trimAfter, hspace, hrun],hw,hr,fun hne => ?_⟩
              obtain ⟨t,ts,hts⟩ := List.exists_cons_of_ne_nil hne
              exact absurd (hspace ▸ hlast) (hnext t (by rw [hts]; rfl)).1
            · exact ⟨' ' :: w,r,by simp [trimAfter, hb, hspace, hrun],gap_cons (.inl rfl) hw,hr,by simp⟩
        obtain ⟨w,r,hgap,hw,hr,hne⟩ := hgap
        refine ⟨[],p ++ (w ++ r),?_,hempty,.token p hw hr hne,fun _ => rfl⟩
        rw [spread, hrun, hgap, List.nil_append]

def newlines (s : Str) : ℕ := s.count '\n'

theorem newlines_append (s x : Str) : newlines (s ++ x) = newlines s + newlines x := List.count_append ..

def rewrites (a : Char) : Str → ℕ
  | [] => 0
  | c :: s => (if breaksLine a && c = ' ' then 1 else 0) + rewrites c s

theorem newlines_trimAfter {a b : Char} (hab : breaksLine a = breaksLine b) (s : Str) :
    newlines (trimAfter a s) = newlines s + rewrites b s := by
  unfold newlines
  induction s generalizing a b with
  | nil => rfl
  | cons c s ih =>
    have hnewline := ih (a := '\n') (b := ' ') rfl
    have hspace := ih (a := ' ') (b := ' ') rfl
    have hkeep := ih (a := c) (b := c) rfl
    rw [trimAfter, rewrites, ← hab]
    by_cases hc : c = ' '
    · by_cases hbreak : breaksLine a
      · simp only [hc, hbreak, List.count_cons]
        simp
        omega
      · by_cases ha : a = ' '
        · simp [hc, ha, hspace]
        · simp [hc, hbreak, ha, hspace]
    · simp only [ne_eq, hc, not_false_eq_true, if_true, List.count_cons, hkeep]
      simp
      omega

theorem rewrites_append (a : Char) (s x : Str) : rewrites a (s ++ x) = rewrites a s + rewrites (s.getLastD a) x := by
  induction s generalizing a with
  | nil => simp [rewrites]
  | cons c s ih => simp only [List.cons_append, rewrites, ih, List.getLastD_cons, Nat.add_assoc]

theorem rewrites_of_chain {a : Char} {t : Str} (ha : breaksLine a = false) (h : t.IsChain MayFollow) :
    rewrites a t = 0 := by
  cases t with
  | nil => rfl
  | cons c t =>
    rw [rewrites, ha]
    induction t generalizing c with
    | nil => rfl
    | cons d t ih =>
      rw [List.isChain_cons_cons] at h
      have hrest := ih d h.2
      rw [rewrites]
      by_cases hd : d = ' '
      · simpa [(h.1 hd).2] using hrest
      · simpa [hd] using hrest

/-- Of the tokens, only those that end in a break have a space rewritten. -/
theorem rewrites_pieces {ps : List Str} (h : ∀ t ∈ skipEmpty ps, t.IsChain MayFollow) :
    rewrites ' ' (ps.flatMap (· ++ [' '])) = (skipEmpty ps).countP endsBreak := by
  induction ps with
  | nil => rfl
  | cons p ps ih =>
    by_cases hp : p = []
    · subst hp
      simpa [rewrites, skipEmpty] using ih h
    · have hskip : skipEmpty (p :: ps) = p :: skipEmpty ps := by simp [skipEmpty, hp]
      rw [hskip] at h ⊢
      have hrest := ih fun t ht => h t (List.mem_cons_of_mem _ ht)
      have hnone := rewrites_of_chain breaksLine_space (h p (List.mem_cons_self ..))
      have hlast := getLast?_eq_of_ne_nil hp ' '
      rw [List.flatMap_cons, List.append_assoc, rewrites_append, hnone, List.countP_cons, ← hrest]
      generalize p.getLastD ' ' = b at hlast
      simp [rewrites, endsBreak, hlast, Nat.add_comm]

theorem newlines_pieces (ps : List Str) :
    newlines (ps.flatMap (· ++ [' '])) = newlines (skipEmpty ps).flatten := by
  induction ps with
  | nil => rfl
  | cons p ps ih =>
    have hspace : newlines [' '] = 0 := rfl
    rw [List.flatMap_cons, newlines_append, newlines_append, ih, hspace]
    by_cases hp : p = []
    · subst hp
      simp [skipEmpty, newlines]
    · simp [skipEmpty, hp, newlines_append]

theorem Spaced.isInfix {ts : List Str} {r t : Str} (h : Spaced ts r) (ht : t ∈ ts) : t <:+: r := by
  induction h with
  | nil => cases ht
  | last t hw =>
    rw [List.mem_singleton.mp ht]
    exact (List.prefix_append _ _).isInfix
  | cons t hw hne h ih =>
    rcases List.mem_cons.mp ht with rfl | ht
    · exact (List.prefix_append _ _).isInfix
    · exact (ih ht).trans ((List.suffix_append _ _).trans (List.suffix_append _ _)).isInfix

theorem Spaced.head? {ts : List Str} {t r : Str} (h : Spaced (t :: ts) r) (ht : t ≠ []) : r.head? = t.head? := by
  obtain ⟨c,s,rfl⟩ := List.exists_cons_of_ne_nil ht
  cases h <;> rfl

theorem Spaced.append {ts : List Str} {r g : Str} (h : Spaced ts r) (hts : ts ≠ []) (hg : Gap g) :
    Spaced ts (r ++ g) := by
  induction h with
  | nil => exact absurd rfl hts
  | @last t w hw =>
    rw [List.append_assoc]
    apply Spaced.last
    intro c hc
    exact (List.mem_append.mp hc).elim (hw c) (hg c)
  | cons t hw hne h ih =>
    rw [List.append_assoc, List.append_assoc]
    exact .cons t hw hne (ih (by simp))

/-- A gap without newlines that trimming lets out after `t` and before `u` is one
space, and a gap after a break starts with a newline. -/
theorem newlines_pos {t w : Str} (h : (t ++ w).IsChain MayFollow) (ht : endsBreak t) (hw : Gap w) (hne : w ≠ []) :
    0 < newlines w := by
  obtain ⟨c,s,rfl⟩ := List.exists_cons_of_ne_nil hne
  rcases hw c (List.mem_cons_self ..) with rfl | rfl
  · cases hlast : t.getLast? with
    | none => simp [endsBreak, hlast] at ht
    | some b =>
      have hbreak : breaksLine b = true := by simpa [endsBreak, hlast] using ht
      have hfollows := (List.isChain_append.mp h).2.2 b hlast ' ' rfl
      rw [(hfollows rfl).2] at hbreak
      cases hbreak
  · simp [newlines]

theorem spaces_of_newlines {w : Str} (hw : Gap w) (h : newlines w = 0) : ∀ c ∈ w, c = ' ' := by
  intro c hc
  refine (hw c hc).resolve_right fun heq => ?_
  have hpos : 0 < w.count '\n' := List.count_pos_iff.mpr (heq ▸ hc)
  exact absurd h hpos.ne'

/-- A trimmed text has a newline after every token that ends in a break; where it
has no other, every gap after another token is one space. -/
theorem Spaced.newlines_le {ts : List Str} {r : Str} (h : Spaced ts r) (hne : ∀ t ∈ ts, t ≠ [])
    (hchain : r.IsChain MayFollow) (hlast : endsBreak r = false) :
    newlines ts.flatten + ts.countP endsBreak ≤ newlines r ∧
    (newlines r = newlines ts.flatten + ts.countP endsBreak →
      ts.IsChain fun t u => t.getLast? ≠ some ' ' ∧ (u.head? = some ' ' → endsBreak t)) := by
  induction h with
  | nil => simp
  | @last t w hw =>
    refine ⟨?_,fun _ => List.isChain_singleton t⟩
    rw [newlines_append, List.flatten_singleton, List.countP_singleton]
    by_cases hb : endsBreak t
    · have hgap : w ≠ [] := by
        rintro rfl
        rw [List.append_nil, hb] at hlast
        cases hlast
      have hpos := newlines_pos hchain hb hw hgap
      simp only [hb, if_true]
      omega
    · simp [hb]
  | @cons t u w r ts hw hgap h ih =>
    have hr : r ≠ [] := by
      rintro rfl
      have hu := hne u (by simp)
      obtain ⟨c,u,rfl⟩ := List.exists_cons_of_ne_nil hu
      cases h.head? hu
    have hchains := List.isChain_append.mp hchain
    have hchains' := List.isChain_append.mp hchains.2.1
    have hend : endsBreak r = false := by
      rw [← hlast, endsBreak, endsBreak, List.getLast?_append_of_ne_nil _ (by simp [hr]),
        List.getLast?_append_of_ne_nil _ hr]
    obtain ⟨hle,heq⟩ := ih (fun t ht => hne t (List.mem_cons_of_mem _ ht)) hchains'.2.1 hend
    have hpos : endsBreak t → 0 < newlines w := fun hb => by
      rw [← List.append_assoc] at hchain
      exact newlines_pos (List.isChain_append.mp hchain).1 hb hw hgap
    rw [newlines_append, newlines_append, List.flatten_cons, newlines_append, List.countP_cons]
    constructor
    · by_cases hb : endsBreak t
      · have := hpos hb
        simp only [hb, if_true]
        omega
      · simp only [hb, Bool.false_eq_true, if_false]
        omega
    · intro htotal
      have hsplit : newlines r = newlines (u :: ts).flatten + (u :: ts).countP endsBreak ∧
          (¬ endsBreak t → newlines w = 0) := by
        by_cases hb : endsBreak t
        · have := hpos hb
          simp only [hb, if_true] at htotal
          exact ⟨by omega,fun h => absurd hb h⟩
        · simp only [hb, Bool.false_eq_true, if_false] at htotal
          exact ⟨by omega,fun _ => by omega⟩
      refine (heq hsplit.1).cons_cons ⟨fun hspace => ?_,fun hspace => ?_⟩
      · have hb : ¬ endsBreak t := by simp [endsBreak, hspace]
        obtain ⟨c,s,rfl⟩ := List.exists_cons_of_ne_nil hgap
        have hc := spaces_of_newlines hw (hsplit.2 hb) c (List.mem_cons_self ..)
        exact (hchains.2.2 ' ' hspace c rfl hc).1 rfl
      · by_contra hb
        have hspaces := spaces_of_newlines hw (hsplit.2 hb)
        obtain ⟨c,hc⟩ : ∃ c, w.getLast? = some c := ⟨_,List.getLast?_eq_some_getLast hgap⟩
        have hcs := hspaces c (List.mem_of_getLast? hc)
        have hhead : r.head? = some ' ' := by rw [h.head? (hne u (by simp)), hspace]
        exact (hchains'.2.2 c hc ' ' hhead rfl).1 hcs

theorem mem_skipEmpty {ps : List Str} {t : Str} (h : t ∈ skipEmpty ps) : t ≠ [] := by
  simpa using (List.mem_filter.mp h).2

/-- One more space at the end only makes the last gap longer. -/
theorem trimAfter_end (s : Str) : ∃ g, trimAfter ' ' (s ++ [' ']) = trimAfter ' ' s ++ g ∧ Gap g ∧
    endsBreak (trimAfter ' ' s ++ g) = false ∧ (trimAfter ' ' s = [] → g = []) := by
  rw [trimAfter_append]
  refine ⟨_,rfl,?_⟩
  rcases List.eq_nil_or_concat (trimAfter ' ' s) with hnil | ⟨r,c,hr⟩
  · simp [hnil, trimAfter, Gap, endsBreak]
  · rw [hr]
    by_cases hb : breaksLine c
    · simp [trimAfter, hb, Gap, endsBreak]
    · by_cases hc : c = ' '
      · simp [trimAfter, hc, Gap, endsBreak]
      · simp [trimAfter, hb, hc, Gap, endsBreak]

/-- The tokens of a tree are verbatim and apart in its rendering exactly when
trimming has no space of theirs to drop or to rewrite. -/
theorem render_spaced_iff (t : IR) : Spaced t.tokens t.render ↔ Trimmed t.tokens := by
  rw [IR.render, IR.toStringImpl_eq, trimString_eq, ← IR.skipEmpty_pieces]
  have hpieces := t.pieces_ne_nil
  generalize t.pieces = ps at hpieces
  constructor
  · intro h
    obtain ⟨g,hend,hg,hlast,hnil⟩ := trimAfter_end (spread ps)
    have hchain := trimAfter_chain ' ' (spread ps ++ [' '])
    rw [hend] at hchain
    have hspaced : Spaced (skipEmpty ps) (trimAfter ' ' (spread ps) ++ g) := by
      by_cases hts : skipEmpty ps = []
      · have hempty : trimAfter ' ' (spread ps) = [] := by
          rw [hts] at h
          exact h.eq_nil
        rw [hnil hempty, List.append_nil]
        exact h
      · exact h.append hts hg
    have hinside : ∀ t ∈ skipEmpty ps, t.IsChain MayFollow := fun t ht =>
      List.IsChain.infix hchain.of_cons (hspaced.isInfix ht)
    refine ⟨hinside,fun u hu => ?_,?_⟩
    · obtain ⟨ts,hts⟩ := List.head?_eq_some_iff.mp hu
      have hne : u ≠ [] := mem_skipEmpty (hts ▸ List.mem_cons_self ..)
      rw [hts] at hspaced
      rw [← hspaced.head? hne]
      intro hspace
      obtain ⟨s,hs⟩ := List.head?_eq_some_iff.mp hspace
      rw [hs, List.isChain_cons_cons] at hchain
      exact (hchain.1 rfl).1 rfl
    · apply (hspaced.newlines_le (fun t ht => mem_skipEmpty ht) hchain.of_cons hlast).2
      rw [← hend, newlines_trimAfter (b := ' ') rfl, spread_space hpieces, newlines_pieces, rewrites_pieces hinside]
  · rintro ⟨hinside,hfirst,hbetween⟩
    obtain ⟨w,r,hrun,_,hr,hw⟩ := trimAfter_spaced (.inl rfl) hinside (fun t ht h => absurd h (hfirst t ht)) hbetween
    rw [hrun, hw rfl, List.nil_append]
    exact hr

def quotedSemicolon : IR := IR.ofData id 1 (.string "'a; b'".toList) 0

/-- The space in the literal comes out as a newline. -/
theorem quotedSemicolon_rewritten : ¬ Spaced quotedSemicolon.tokens quotedSemicolon.render := by
  intro h
  have hrender : quotedSemicolon.render = "'a;\nb'".toList := by decide
  have hwithin : "'a; b'".toList <:+: quotedSemicolon.render :=
    h.isInfix (List.mem_singleton_self _)
  have heq := hwithin.eq_of_length (by rw [hrender]; decide)
  rw [hrender] at heq
  exact absurd heq (by decide)

end PolyGlot
