import PolyGlot.Types.TypeSystem
import PolyGlot.Types.Identity
import PolyGlot.Support.Along

set_option autoImplicit false

/-! # Pointer types

`GeneratePointerType` and `GetOrCreatePointerType` share the map `pointer_map`.
The first takes the given type as an original one in any case, the second looks
first whether it is a pointer itself.
-/
namespace PolyGlot

open VectorMap

namespace TypeTables

def pointerAt (t : TypeTables) (originalType : TypeID) (level : ℕ) : Option TypeID := (t.levels originalType)[level]?

def IsPointer (t : TypeTables) (id : TypeID) : Prop := ∃ p, t.getTypePtrByID id = some (.pointer p)

/-- No two pointer types have the same `orig_type_`. -/
def Canonical (t : TypeTables) : Prop := ∀ id id' p p', t.getTypePtrByID id = some (.pointer p) →
  t.getTypePtrByID id' = some (.pointer p') → p.origType = p'.origType → id = id'

def nestedPointers (t : TypeTables) (type : TypeID) : ℕ → TypeTables × TypeID
  | 0 => (t, type)
  | n + 1 =>
    let r := t.nestedPointers type n
    r.1.getOrCreatePointerType r.2

/-- Every pointer type stands in the map, at one place, with the type that stands
a level below it as its `orig_type_`; an original type is older than the pointers
over it. -/
structure Chained (t : TypeTables) : Prop where
  unused : ∀ id, t.statics.nextId ≤ id → t.getTypePtrByID id = none
  key_lt : ∀ o ∈ t.own.pointers, o < t.statics.nextId
  older : ∀ o k id, t.pointerAt o k = some id → o < id
  unique : ∀ o k o' k' id, t.pointerAt o k = some id → t.pointerAt o' k' = some id → o = o' ∧ k = k'
  below : ∀ o k id, t.pointerAt o k = some id → ∃ p, t.getTypePtrByID id = some (.pointer p) ∧
    (k = 1 ∧ p.origType = o ∨ ∃ j, k = j + 2 ∧ t.pointerAt o (j + 1) = some p.origType)
  listed : ∀ id, t.IsPointer id → ∃ o k, t.pointerAt o k = some id

structure Extended (o : TypeID) (t t' : TypeTables) : Prop where
  next : t.statics.nextId ≤ t'.statics.nextId
  seen : ∀ id < t.statics.nextId, t'.getTypePtrByID id = t.getTypePtrByID id
  kept : ∀ o' k id, t.pointerAt o' k = some id → t'.pointerAt o' k = some id
  fresh : ∀ o' k id, t'.pointerAt o' k = some id → t.pointerAt o' k = some id ∨ t.statics.nextId ≤ id
  keys : ∀ o' ∈ t'.own.pointers, o' ∈ t.own.pointers ∨ o' = o

structure Added (t t' : TypeTables) (n : TypeID) (p : PointerType) (o : TypeID) (k : ℕ) : Prop where
  next : t'.statics.nextId = t.statics.nextId
  get : ∀ id, t'.getTypePtrByID id = if id = n then some (.pointer p) else t.getTypePtrByID id
  place : ∀ o' k', t'.pointerAt o' k' = if o' = o ∧ k' = k then some n else t.pointerAt o' k'
  keys : ∀ o' ∈ t'.own.pointers, o' ∈ t.own.pointers ∨ o' = o

variable {t t' t'' : TypeTables} {o x y n id : TypeID} {k : ℕ} {p : PointerType}

theorem pointerAt_setLevel (t : TypeTables) (o : TypeID) (k : ℕ) (n : TypeID) (o' : TypeID) (k' : ℕ) :
    (t.setLevel o k n).pointerAt o' k' = if o' = o ∧ k' = k then some n else t.pointerAt o' k' := by
  unfold pointerAt levels setLevel
  dsimp only
  rw [getElem?_insert_ite]
  by_cases ho : o = o'
  · subst ho
    rw [if_pos rfl, Option.getD_some, getElem?_insert_ite]
    simp only [levels, true_and, eq_comm]
  · rw [if_neg ho, if_neg]
    rintro ⟨rfl,_⟩
    exact ho rfl

theorem mem_setLevel {o' : TypeID} : o' ∈ (t.setLevel o k n).own.pointers → o' ∈ t.own.pointers ∨ o' = o := by
  unfold setLevel
  exact VectorMap.of_mem_insert

theorem pointerAt_touchLevels (t : TypeTables) (o o' : TypeID) (k : ℕ) :
    (t.touchLevels o).pointerAt o' k = t.pointerAt o' k := by
  unfold pointerAt levels touchLevels
  dsimp only
  rw [getElem?_insert_ite]
  by_cases ho : o = o'
  · subst ho
    rw [if_pos rfl]
    rfl
  · rw [if_neg ho]

theorem mem_touchLevels {o' : TypeID} : o' ∈ (t.touchLevels o).own.pointers → o' ∈ t.own.pointers ∨ o' = o := by
  unfold touchLevels
  exact VectorMap.of_mem_insert

theorem added_static (t : TypeTables) (n : TypeID) (p : PointerType) (o : TypeID) (k : ℕ) :
    Added t (({ t with statics := { t.statics with
      simple := t.statics.simple.insert n (.pointer p) } } : TypeTables).setLevel o k n) n p o k where
  next := rfl
  get := by
    intro id
    unfold getTypePtrByID setLevel
    dsimp only
    rw [getElem?_insert_ite]
    by_cases h : n = id
    · simp [h]
    · simp [h, Ne.symm h]
  place := fun o' k' => pointerAt_setLevel _ o k n o' k'
  keys := fun _ => mem_setLevel

theorem getTypePtrByID_eq_none : t.getTypePtrByID id = none ↔ t.statics.simple[id]? = none ∧
    t.statics.compound[id]? = none ∧ t.statics.function[id]? = none ∧ t.own.simpleVar[id]? = none ∧
    t.own.compound[id]? = none ∧ t.own.function[id]? = none := by
  simp [getTypePtrByID]

theorem added_own (hn : t.getTypePtrByID n = none) (p : PointerType) (o : TypeID) (k : ℕ) :
    Added t (({ t with own := { t.own with
      simpleVar := t.own.simpleVar.insert n (.pointer p) } } : TypeTables).setLevel o k n) n p o k where
  next := rfl
  get := by
    intro id
    unfold getTypePtrByID setLevel
    dsimp only
    rw [getElem?_insert_ite]
    by_cases h : n = id
    · subst h
      obtain ⟨h₁,h₂,h₃,_⟩ := getTypePtrByID_eq_none.mp hn
      simp [h₁, h₂, h₃]
    · simp [h, Ne.symm h]
  place := fun o' k' => pointerAt_setLevel _ o k n o' k'
  keys := fun _ => mem_setLevel

theorem Extended.refl : Extended o t t :=
  ⟨le_rfl,fun _ _ => rfl,fun _ _ _ h => h,fun _ _ _ h => .inl h,fun _ h => .inl h⟩

theorem Extended.trans (h : Extended o t t') (h' : Extended o t' t'') : Extended o t t'' where
  next := h.next.trans h'.next
  seen := fun id hid => (h'.seen id (hid.trans_le h.next)).trans (h.seen id hid)
  kept := fun o' k id hid => h'.kept o' k id (h.kept o' k id hid)
  fresh := by
    intro o' k id hid
    rcases h'.fresh o' k id hid with hid | hid
    · exact h.fresh o' k id hid
    · exact .inr (h.next.trans hid)
  keys := by
    intro o' ho'
    rcases h'.keys o' ho' with ho' | ho'
    · exact h.keys o' ho'
    · exact .inr ho'

theorem Extended.genTypeId : Extended o t t.genTypeId where
  next := (lt_add_one _).le
  seen := fun _ _ => rfl
  kept := fun _ _ _ h => h
  fresh := fun _ _ _ h => .inl h
  keys := fun _ h => .inl h

theorem Extended.touchLevels : Extended o t (t.touchLevels o) where
  next := le_rfl
  seen := fun _ _ => rfl
  kept := fun o' k id h => by rwa [pointerAt_touchLevels]
  fresh := fun o' k id h => by
    rw [pointerAt_touchLevels] at h
    exact .inl h
  keys := fun _ => mem_touchLevels

/-- After its id was taken, a pointer type is added. -/
theorem Extended.added (h : Extended o t t') (ha : Added t' t'' n p o k) (hn : t.statics.nextId ≤ n)
    (hnone : t'.pointerAt o k = none) : Extended o t t'' where
  next := ha.next ▸ h.next
  seen := by
    intro id hid
    rw [ha.get, if_neg (hid.trans_le hn).ne]
    exact h.seen id hid
  kept := by
    intro o' k' id hid
    rw [ha.place, if_neg]
    · exact h.kept o' k' id hid
    · rintro ⟨rfl,rfl⟩
      rw [h.kept _ _ _ hid] at hnone
      cases hnone
  fresh := by
    intro o' k' id hid
    rw [ha.place] at hid
    split at hid
    · cases hid
      exact .inr hn
    · exact h.fresh o' k' id hid
  keys := by
    intro o' ho'
    rcases ha.keys o' ho' with ho' | ho'
    · exact h.keys o' ho'
    · exact .inr ho'

theorem Chained.isPointer_iff (h : t.Chained) : t.IsPointer id ↔ ∃ o k, t.pointerAt o k = some id := by
  constructor
  · exact h.listed id
  · rintro ⟨o,k,hid⟩
    obtain ⟨p,hp,_⟩ := h.below o k id hid
    exact ⟨p,hp⟩

theorem Chained.pointer_lt (h : t.Chained) (hid : t.pointerAt o k = some id) : id < t.statics.nextId := by
  obtain ⟨p,hp,_⟩ := h.below o k id hid
  by_contra hle
  rw [h.unused id (not_lt.mp hle)] at hp
  cases hp

theorem Chained.level_ne_zero (h : t.Chained) (hid : t.pointerAt o k = some id) : k ≠ 0 := by
  obtain ⟨_,_,⟨rfl,_⟩ | ⟨j,rfl,_⟩⟩ := h.below o k id hid
  · exact one_ne_zero
  · exact Nat.succ_ne_zero _

theorem Chained.genTypeId (h : t.Chained) : t.genTypeId.Chained where
  unused := fun id hid => h.unused id ((lt_add_one _).le.trans hid)
  key_lt := fun o ho => (h.key_lt o ho).trans (lt_add_one _)
  older := h.older
  unique := h.unique
  below := h.below
  listed := h.listed

theorem Chained.touchLevels (h : t.Chained) (ho : o < t.statics.nextId) : (t.touchLevels o).Chained where
  unused := h.unused
  key_lt := by
    intro o' ho'
    rcases mem_touchLevels ho' with ho' | rfl
    · exact h.key_lt o' ho'
    · exact ho
  older := by
    intro o' k id hid
    rw [pointerAt_touchLevels] at hid
    exact h.older o' k id hid
  unique := by
    intro o₁ k₁ o₂ k₂ id h₁ h₂
    rw [pointerAt_touchLevels] at h₁ h₂
    exact h.unique o₁ k₁ o₂ k₂ id h₁ h₂
  below := by
    intro o' k id hid
    rw [pointerAt_touchLevels] at hid
    simp only [pointerAt_touchLevels]
    exact h.below o' k id hid
  listed := by
    intro id hid
    simp only [pointerAt_touchLevels]
    exact h.listed id hid

theorem Chained.added (h : t.Chained) (ha : Added t t' n p o k) (hn : t.getTypePtrByID n = none)
    (hlt : n < t.statics.nextId) (ho : o < n) (hnone : t.pointerAt o k = none)
    (hbelow : k = 1 ∧ p.origType = o ∨ ∃ j, k = j + 2 ∧ t.pointerAt o (j + 1) = some p.origType) : t'.Chained := by
  have hnot : ∀ o' k', t.pointerAt o' k' ≠ some n := by
    intro o' k' hid
    obtain ⟨_,hp,_⟩ := h.below o' k' n hid
    rw [hn] at hp
    cases hp
  have hkept : ∀ o' k' id, t.pointerAt o' k' = some id → t'.pointerAt o' k' = some id := by
    intro o' k' id hid
    rw [ha.place, if_neg]
    · exact hid
    · rintro ⟨rfl,rfl⟩
      rw [hnone] at hid
      cases hid
  have hplace : ∀ o' k' id, t'.pointerAt o' k' = some id → (o' = o ∧ k' = k ∧ id = n) ∨ t.pointerAt o' k' = some id := by
    intro o' k' id hid
    rw [ha.place] at hid
    split at hid
    · rename_i heq
      exact .inl ⟨heq.1,heq.2,(Option.some.inj hid).symm⟩
    · exact .inr hid
  constructor
  · intro id hid
    rw [ha.next] at hid
    rw [ha.get, if_neg (hlt.trans_le hid).ne']
    exact h.unused id hid
  · intro o' ho'
    rw [ha.next]
    rcases ha.keys o' ho' with ho' | rfl
    · exact h.key_lt o' ho'
    · exact ho.trans hlt
  · intro o' k' id hid
    rcases hplace o' k' id hid with ⟨rfl,rfl,rfl⟩ | hid
    · exact ho
    · exact h.older o' k' id hid
  · intro o₁ k₁ o₂ k₂ id h₁ h₂
    rcases hplace o₁ k₁ id h₁ with ⟨rfl,rfl,rfl⟩ | h₁
    · rcases hplace o₂ k₂ _ h₂ with ⟨rfl,rfl,_⟩ | h₂
      · exact ⟨rfl,rfl⟩
      · exact absurd h₂ (hnot o₂ k₂)
    · rcases hplace o₂ k₂ id h₂ with ⟨rfl,rfl,rfl⟩ | h₂
      · exact absurd h₁ (hnot o₁ k₁)
      · exact h.unique o₁ k₁ o₂ k₂ id h₁ h₂
  · intro o' k' id hid
    rcases hplace o' k' id hid with ⟨rfl,rfl,rfl⟩ | hid
    · refine ⟨p,by rw [ha.get, if_pos rfl],?_⟩
      exact hbelow.imp_right fun ⟨j,hj,horig⟩ => ⟨j,hj,hkept _ _ _ horig⟩
    · obtain ⟨q,hq,hlevel⟩ := h.below o' k' id hid
      refine ⟨q,?_,hlevel.imp_right fun ⟨j,hj,horig⟩ => ⟨j,hj,hkept _ _ _ horig⟩⟩
      rw [ha.get, if_neg]
      · exact hq
      · rintro rfl
        exact hnot o' k' hid
  · rintro id ⟨q,hq⟩
    rw [ha.get] at hq
    split at hq
    · rename_i hid
      exact ⟨o,k,by rw [ha.place, if_pos ⟨rfl,rfl⟩, hid]⟩
    · obtain ⟨o',k',hid⟩ := h.listed id ⟨q,hq⟩
      exact ⟨o',k',hkept o' k' id hid⟩

/-- The levels up to the wanted one are there afterwards, and those above it as
they were. -/
theorem generatePointerType_spec (h : t.Chained) (ho : o < t.statics.nextId) (l : ℕ) :
    ∃ t' id, t.generatePointerType o (l + 1) = .ok (t', id) ∧ t'.Chained ∧ Extended o t t' ∧
      t'.pointerAt o (l + 1) = some id ∧ ∀ k, l + 1 < k → t'.pointerAt o k = t.pointerAt o k := by
  have hunused : ∀ {t : TypeTables}, t.Chained → t.getTypePtrByID t.statics.nextId = none :=
    fun h => h.unused _ le_rfl
  induction l generalizing t with
  | zero =>
    have htouched : (t.touchLevels o).Chained := h.touchLevels ho
    have hext : Extended o t (t.touchLevels o) := .touchLevels
    unfold generatePointerType
    dsimp only
    cases hat : ((t.touchLevels o).levels o)[0 + 1]? with
    | some id => exact ⟨_,id,rfl,htouched,hext,hat,fun k _ => pointerAt_touchLevels t o o k⟩
    | none =>
      have hadded := added_static (t.touchLevels o).genTypeId t.statics.nextId
        ⟨t.statics.nextId,pointerName t.statics.nextId,o,o,0 + 1⟩ o (0 + 1)
      refine ⟨_,_,rfl,?_,?_,?_,?_⟩
      · exact htouched.genTypeId.added hadded (hunused h) (lt_add_one _) ho hat (.inl ⟨rfl,rfl⟩)
      · exact (hext.trans .genTypeId).added hadded le_rfl hat
      · exact (hadded.place o (0 + 1)).trans (if_pos ⟨rfl,rfl⟩)
      · intro k hk
        have hsame := (hadded.place o k).trans (if_neg fun heq => hk.ne' heq.2)
        exact hsame.trans (pointerAt_touchLevels t o o k)
  | succ l ih =>
    have htouched : (t.touchLevels o).Chained := h.touchLevels ho
    have hext : Extended o t (t.touchLevels o) := .touchLevels
    unfold generatePointerType
    dsimp only
    cases hat : ((t.touchLevels o).levels o)[l + 1 + 1]? with
    | some id => exact ⟨_,id,rfl,htouched,hext,hat,fun k _ => pointerAt_touchLevels t o o k⟩
    | none =>
      obtain ⟨u,base,hrun,hu,huext,hbase,habove⟩ :=
        ih (t := (t.touchLevels o).genTypeId) htouched.genTypeId (ho.trans (lt_add_one _))
      rw [if_neg (Nat.succ_ne_zero l), hrun]
      have hreserved : t.statics.nextId < (t.touchLevels o).genTypeId.statics.nextId := lt_add_one _
      have hnone : u.pointerAt o (l + 1 + 1) = none := (habove _ (Nat.lt_succ_self _)).trans hat
      have hadded := added_static u t.statics.nextId
        ⟨t.statics.nextId,pointerName t.statics.nextId,base,o,l + 1 + 1⟩ o (l + 1 + 1)
      refine ⟨_,_,rfl,?_,?_,?_,?_⟩
      · exact hu.added hadded ((huext.seen _ hreserved).trans (hunused h)) (hreserved.trans_le huext.next) ho hnone
          (.inr ⟨l,rfl,hbase⟩)
      · exact ((hext.trans .genTypeId).trans huext).added hadded le_rfl hnone
      · exact (hadded.place o (l + 1 + 1)).trans (if_pos ⟨rfl,rfl⟩)
      · intro k hk
        have hsame := (hadded.place o k).trans (if_neg fun heq => hk.ne' heq.2)
        exact (hsame.trans (habove k ((Nat.lt_succ_self _).trans hk))).trans (pointerAt_touchLevels t o o k)

/-- Where `GetOrCreatePointerType` finds a type: at its place in the map, and an
original type below the pointers over it. -/
def FoundAt (t : TypeTables) (x o : TypeID) (k : ℕ) : Prop :=
  t.pointerAt o k = some x ∨ (k = 0 ∧ o = x ∧ ¬ t.IsPointer x)

theorem mem_pointers_iff : o ∈ t.own.pointers ↔ ∃ levels, (o, levels) ∈ t.own.pointers.toList := by
  simp only [Std.TreeMap.mem_toList_iff_getElem?_eq_some, Std.TreeMap.mem_iff_isSome_getElem?, Option.isSome_iff_exists]

theorem pointerAt_of_entry {levels : Std.TreeMap ℕ TypeID compare} (he : (o, levels) ∈ t.own.pointers.toList)
    (hl : (k, id) ∈ levels.toList) : t.pointerAt o k = some id := by
  rw [Std.TreeMap.mem_toList_iff_getElem?_eq_some] at he hl
  rw [pointerAt, TypeTables.levels, he]
  exact hl

theorem entry_of_pointerAt (h : t.pointerAt o k = some id) :
    ∃ levels, (o, levels) ∈ t.own.pointers.toList ∧ (k, id) ∈ levels.toList := by
  unfold pointerAt levels at h
  cases he : t.own.pointers[o]? with
  | none => simp [he] at h
  | some levels =>
    rw [he, Option.getD_some] at h
    exact ⟨levels,Std.TreeMap.mem_toList_iff_getElem?_eq_some.mpr he,Std.TreeMap.mem_toList_iff_getElem?_eq_some.mpr h⟩

/-- What the loop makes of an entry that does not have the type. -/
theorem passed_of_entry {levels : Std.TreeMap ℕ TypeID compare} (he : (o, levels) ∈ t.own.pointers.toList) (hne : o ≠ x)
    (hnot : ∀ k, t.pointerAt o k ≠ some x) :
    (if o = x then some (x, 0) else (levels.toList.find? fun level => level.2 = x).map fun level => (o, level.1)) = none := by
  rw [if_neg hne, Option.map_eq_none_iff, List.find?_eq_none]
  rintro ⟨k,id⟩ hl heq
  exact hnot k (of_decide_eq_true heq ▸ pointerAt_of_entry he hl)

theorem Chained.findPointer_pointer (h : t.Chained) (hx : t.pointerAt o k = some x) : t.findPointer x = some (o, k) := by
  obtain ⟨levels,he,hl⟩ := entry_of_pointerAt hx
  obtain ⟨before,after,hsplit⟩ := List.append_of_mem he
  have hordered := Std.TreeMap.ordered_keys_toList (t := t.own.pointers)
  rw [hsplit, List.pairwise_append] at hordered
  unfold findPointer
  rw [List.findSome?_eq_some_iff]
  refine ⟨before,(o, levels),after,hsplit,?_,?_⟩
  · -- the entry has the type among its levels and no other level of it
    rw [if_neg (h.older o k x hx).ne]
    cases hfind : levels.toList.find? (fun level => level.2 = x) with
    | none => exact absurd (decide_eq_true rfl) (List.find?_eq_none.mp hfind (k, x) hl)
    | some level =>
      have heq := List.find?_some hfind
      have hlevel := pointerAt_of_entry he (List.mem_of_find?_eq_some hfind)
      rw [of_decide_eq_true heq] at hlevel
      rw [Option.map_some, (h.unique o level.1 o k x hlevel hx).2]
  · rintro ⟨o',levels'⟩ hmem
    have hlt : o' < o := compare_lt_iff_lt.mp (hordered.2.2 _ hmem _ (List.mem_cons_self ..))
    apply passed_of_entry (hsplit ▸ List.mem_append_left _ hmem) (hlt.trans (h.older o k x hx)).ne
    intro k' hx'
    exact hlt.ne (h.unique o' k' o k x hx' hx).1

/-- A type that is no pointer is found as an original one or not at all. -/
theorem Chained.findPointer_plain (h : t.Chained) (hx : ¬ t.IsPointer x) :
    t.findPointer x = if x ∈ t.own.pointers then some (x, 0) else none := by
  have hnot : ∀ o k, t.pointerAt o k ≠ some x := by
    intro o k hid
    exact hx (h.isPointer_iff.mpr ⟨o,k,hid⟩)
  unfold findPointer
  by_cases hkey : x ∈ t.own.pointers
  · rw [if_pos hkey, List.findSome?_eq_some_iff]
    obtain ⟨levels,he⟩ := mem_pointers_iff.mp hkey
    obtain ⟨before,after,hsplit⟩ := List.append_of_mem he
    have hordered := Std.TreeMap.ordered_keys_toList (t := t.own.pointers)
    rw [hsplit, List.pairwise_append] at hordered
    refine ⟨before,(x, levels),after,hsplit,if_pos rfl,?_⟩
    rintro ⟨o',levels'⟩ hmem
    have hlt : o' < x := compare_lt_iff_lt.mp (hordered.2.2 _ hmem _ (List.mem_cons_self ..))
    exact passed_of_entry (hsplit ▸ List.mem_append_left _ hmem) hlt.ne (hnot o')
  · rw [if_neg hkey, List.findSome?_eq_none_iff]
    rintro ⟨o',levels'⟩ hmem
    apply passed_of_entry hmem _ (hnot o')
    rintro rfl
    exact hkey (mem_pointers_iff.mpr ⟨levels',hmem⟩)

theorem addPointer_spec (h : t.Chained) (ho : o < t.statics.nextId) (hnone : t.pointerAt o k = none)
    (hbelow : k = 1 ∧ x = o ∨ ∃ j, k = j + 2 ∧ t.pointerAt o (j + 1) = some x) :
    (t.addPointer x o k).1.Chained ∧ Extended o t (t.addPointer x o k).1 ∧
      (t.addPointer x o k).1.pointerAt o k = some (t.addPointer x o k).2 := by
  have hunused : t.genTypeId.getTypePtrByID t.statics.nextId = none := h.unused _ le_rfl
  have hadded := added_own hunused ⟨t.statics.nextId,pointerName t.statics.nextId,x,o,k⟩ o k
  refine ⟨?_,?_,?_⟩
  · exact h.genTypeId.added hadded hunused (lt_add_one _) ho hnone hbelow
  · exact Extended.genTypeId.added hadded le_rfl hnone
  · exact (hadded.place o k).trans (if_pos ⟨rfl,rfl⟩)

/-- The pointer above the type that was found is there afterwards, and returned. -/
theorem getOrCreatePointerType_spec (h : t.Chained) (hx : x < t.statics.nextId) (hfound : t.FoundAt x o k) :
    ∃ t' id, t.getOrCreatePointerType x = (t', id) ∧ t'.Chained ∧ Extended o t t' ∧
      t'.pointerAt o (k + 1) = some id := by
  have habove : t.findPointer x = some (o, k) → o < t.statics.nextId →
      (k + 1 = 1 ∧ x = o ∨ ∃ j, k + 1 = j + 2 ∧ t.pointerAt o (j + 1) = some x) →
      ∃ t' id, t.getOrCreatePointerType x = (t', id) ∧ t'.Chained ∧ Extended o t t' ∧
        t'.pointerAt o (k + 1) = some id := by
    intro hfind ho hbelow
    unfold getOrCreatePointerType
    rw [hfind]
    dsimp only
    cases hat : (t.levels o)[k + 1]? with
    | some id => exact ⟨t,id,rfl,h,.refl,hat⟩
    | none =>
      obtain ⟨hchained,hext,hplace⟩ := addPointer_spec h ho hat hbelow
      exact ⟨_,_,rfl,hchained,hext,hplace⟩
  rcases hfound with hptr | ⟨rfl,rfl,hplain⟩
  · apply habove (h.findPointer_pointer hptr) ((h.older o k x hptr).trans hx)
    obtain ⟨j,rfl⟩ := Nat.exists_eq_succ_of_ne_zero (h.level_ne_zero hptr)
    exact .inr ⟨j,rfl,hptr⟩
  · by_cases hkey : o ∈ t.own.pointers
    · apply habove _ hx (.inl ⟨rfl,rfl⟩)
      rw [h.findPointer_plain hplain, if_pos hkey]
    · have hnone : t.pointerAt o 1 = none := by
        rw [pointerAt, levels, Std.TreeMap.getElem?_eq_none hkey]
        simp
      obtain ⟨hchained,hext,hplace⟩ := addPointer_spec h hx hnone (.inl ⟨rfl,rfl⟩)
      unfold getOrCreatePointerType
      rw [h.findPointer_plain hplain, if_neg hkey]
      exact ⟨_,_,rfl,hchained,hext,hplace⟩

/-- Each application goes up one level. -/
theorem nestedPointers_spec (h : t.Chained) (hx : x < t.statics.nextId) (hfound : t.FoundAt x o k) (n : ℕ) :
    (t.nestedPointers x n).1.Chained ∧ Extended o t (t.nestedPointers x n).1 ∧
      (n ≠ 0 → (t.nestedPointers x n).1.pointerAt o (k + n) = some (t.nestedPointers x n).2) := by
  induction n with
  | zero => exact ⟨h,.refl,fun h => absurd rfl h⟩
  | succ n ih =>
    obtain ⟨hchained,hext,hplace⟩ := ih
    have hlt : (t.nestedPointers x n).2 < (t.nestedPointers x n).1.statics.nextId := by
      cases n with
      | zero => exact hx
      | succ n => exact hchained.pointer_lt (hplace (Nat.succ_ne_zero n))
    have hnow : (t.nestedPointers x n).1.FoundAt (t.nestedPointers x n).2 o (k + n) := by
      cases n with
      | zero => exact hfound
      | succ n => exact .inl (hplace (Nat.succ_ne_zero n))
    obtain ⟨t',id,hrun,hchained',hext',hplace'⟩ := getOrCreatePointerType_spec hchained hlt hnow
    unfold nestedPointers
    dsimp only
    rw [hrun]
    exact ⟨hchained',hext.trans hext',fun _ => hplace'⟩

/-- `GeneratePointerType` returns what the nested applications return after it,
and what they returned before it. -/
structure Agrees (t : TypeTables) (x : TypeID) (level : ℕ) : Prop where
  after : ∀ t' id, t.generatePointerType x level = .ok (t', id) → (t'.nestedPointers x level).2 = id
  before : ((t.nestedPointers x level).1.generatePointerType x level).map Prod.snd = .ok (t.nestedPointers x level).2

theorem Chained.exists_found (h : t.Chained) (x : TypeID) : ∃ o k, t.FoundAt x o k := by
  by_cases hx : t.IsPointer x
  · obtain ⟨o,k,hid⟩ := h.listed x hx
    exact ⟨o,k,.inl hid⟩
  · exact ⟨x,0,.inr ⟨rfl,rfl,hx⟩⟩

theorem Chained.foundAt_self (h : t.Chained) (hfound : t.FoundAt x o k) : o = x ↔ ¬ t.IsPointer x := by
  rcases hfound with hid | ⟨_,rfl,hplain⟩
  · have hptr : t.IsPointer x := h.isPointer_iff.mpr ⟨o,k,hid⟩
    exact ⟨fun heq => absurd heq (h.older o k x hid).ne,fun hnot => absurd hptr hnot⟩
  · exact ⟨fun _ => hplain,fun _ => rfl⟩

theorem Chained.level_of_plain (h : t.Chained) (hfound : t.FoundAt x o k) (hx : ¬ t.IsPointer x) : k = 0 := by
  rcases hfound with hid | ⟨rfl,_⟩
  · exact absurd (h.isPointer_iff.mpr ⟨o,k,hid⟩) hx
  · rfl

theorem Extended.isPointer_iff (hext : Extended o t t') (hx : x < t.statics.nextId) : t'.IsPointer x ↔ t.IsPointer x := by
  unfold IsPointer
  rw [hext.seen x hx]

theorem Extended.foundAt {o' : TypeID} (hext : Extended o' t t') (hx : x < t.statics.nextId)
    (hfound : t.FoundAt x o k) : t'.FoundAt x o k := by
  rcases hfound with hid | ⟨rfl,rfl,hplain⟩
  · exact .inl (hext.kept o k x hid)
  · exact .inr ⟨rfl,rfl,mt (hext.isPointer_iff hx).mp hplain⟩

/-- The two functions agree about a type exactly when it is no pointer itself. -/
theorem agrees_iff (h : t.Chained) (hx : x < t.statics.nextId) (l : ℕ) : t.Agrees x (l + 1) ↔ ¬ t.IsPointer x := by
  obtain ⟨o,k,hfound⟩ := h.exists_found x
  constructor
  · intro hagrees hptr
    obtain ⟨hchained,hext,hplace⟩ := nestedPointers_spec h hx hfound (l + 1)
    obtain ⟨u,id,hrun,hu,huext,hid,_⟩ := generatePointerType_spec hchained (hx.trans_le hext.next) l
    have hsame := hagrees.before
    rw [hrun] at hsame
    have heq : id = (t.nestedPointers x (l + 1)).2 := Except.ok.inj hsame
    have hthere := huext.kept _ _ _ (hplace (Nat.succ_ne_zero l))
    rw [← heq] at hthere
    exact ((h.foundAt_self hfound).mp (hu.unique _ _ _ _ _ hthere hid).1) hptr
  · intro hplain
    obtain rfl := (h.foundAt_self hfound).mpr hplain
    obtain rfl := h.level_of_plain hfound hplain
    constructor
    · intro t' id hrun
      obtain ⟨u,id',hrun',hu,huext,hid,_⟩ := generatePointerType_spec h hx l
      rw [hrun] at hrun'
      cases hrun'
      obtain ⟨hchained,hext,hplace⟩ := nestedPointers_spec hu (hx.trans_le huext.next) (huext.foundAt hx hfound) (l + 1)
      have hthere := hplace (Nat.succ_ne_zero l)
      rw [Nat.zero_add, hext.kept _ _ _ hid] at hthere
      exact (Option.some.inj hthere).symm
    · obtain ⟨hchained,hext,hplace⟩ := nestedPointers_spec h hx hfound (l + 1)
      obtain ⟨u,id,hrun,_,huext,hid,_⟩ := generatePointerType_spec hchained (hx.trans_le hext.next) l
      have hthere := huext.kept _ _ _ (hplace (Nat.succ_ne_zero l))
      rw [Nat.zero_add, hid] at hthere
      rw [hrun, ← Option.some.inj hthere]
      rfl

def Plain (t : TypeTables) : Prop := ∀ o ∈ t.own.pointers, ¬ t.IsPointer o

theorem Chained.canonical (h : t.Chained) (hplain : t.Plain) : t.Canonical := by
  have hkey : ∀ {o k id}, t.pointerAt o k = some id → o ∈ t.own.pointers := by
    intro o k id hid
    obtain ⟨levels,he,_⟩ := entry_of_pointerAt hid
    exact mem_pointers_iff.mpr ⟨levels,he⟩
  have hnot : ∀ {o k o' k' id}, t.pointerAt o k = some id → t.pointerAt o' k' ≠ some o := by
    intro o k o' k' id hid hptr
    exact hplain o (hkey hid) (h.isPointer_iff.mpr ⟨o',k',hptr⟩)
  intro id id' p p' hp hp' horig
  obtain ⟨o,k,hid⟩ := h.listed id ⟨p,hp⟩
  obtain ⟨o',k',hid'⟩ := h.listed id' ⟨p',hp'⟩
  obtain ⟨q,hq,hbelow⟩ := h.below o k id hid
  obtain ⟨q',hq',hbelow'⟩ := h.below o' k' id' hid'
  rw [hp] at hq
  rw [hp'] at hq'
  cases hq
  cases hq'
  rcases hbelow with ⟨rfl,rfl⟩ | ⟨j,rfl,hj⟩
  · rcases hbelow' with ⟨rfl,rfl⟩ | ⟨j',rfl,hj'⟩
    · rw [← horig, hid] at hid'
      exact Option.some.inj hid'
    · exact absurd (horig ▸ hj') (hnot hid)
  · rcases hbelow' with ⟨rfl,rfl⟩ | ⟨j',rfl,hj'⟩
    · exact absurd (horig.symm ▸ hj) (hnot hid')
    · rw [← horig] at hj'
      obtain ⟨rfl,hlevel⟩ := h.unique o (j + 1) o' (j' + 1) _ hj hj'
      obtain rfl := Nat.succ.inj hlevel
      rw [hid] at hid'
      exact Option.some.inj hid'

theorem Plain.extended (hplain : t.Plain) (h : t.Chained) (hext : Extended o t t') (ho : o < t.statics.nextId)
    (hnot : ¬ t.IsPointer o) : t'.Plain := by
  intro o' ho'
  rcases hext.keys o' ho' with ho' | rfl
  · exact mt (hext.isPointer_iff (h.key_lt o' ho')).mp (hplain o' ho')
  · exact mt (hext.isPointer_iff ho).mp hnot

theorem Chained.created (h : t.Chained) (hnext : t'.statics.nextId = t.statics.nextId + 1)
    (hptrs : t'.own.pointers = t.own.pointers)
    (hget : ∀ id, id ≠ t.statics.nextId → t'.getTypePtrByID id = t.getTypePtrByID id)
    (hnew : ¬ t'.IsPointer t.statics.nextId) : t'.Chained ∧ (t.Plain → t'.Plain) := by
  have hplace : ∀ o k, t'.pointerAt o k = t.pointerAt o k := by
    intro o k
    unfold pointerAt levels
    rw [hptrs]
  have hisPointer : ∀ id, t'.IsPointer id → t.IsPointer id := by
    intro id hid
    by_cases heq : id = t.statics.nextId
    · exact absurd (heq ▸ hid) hnew
    · unfold IsPointer at hid
      rwa [hget id heq] at hid
  refine ⟨⟨?_,?_,?_,?_,?_,?_⟩,?_⟩
  · intro id hid
    rw [hnext] at hid
    have hlt : t.statics.nextId < id := Int.lt_of_add_one_le hid
    rw [hget id hlt.ne']
    exact h.unused id hlt.le
  · intro o ho
    rw [hptrs] at ho
    rw [hnext]
    exact (h.key_lt o ho).trans (lt_add_one _)
  · intro o k id hid
    rw [hplace] at hid
    exact h.older o k id hid
  · intro o k o' k' id hid hid'
    rw [hplace] at hid hid'
    exact h.unique o k o' k' id hid hid'
  · intro o k id hid
    rw [hplace] at hid
    simp only [hplace]
    rw [hget id (h.pointer_lt hid).ne]
    exact h.below o k id hid
  · intro id hid
    simp only [hplace]
    exact h.listed id (hisPointer id hid)
  · intro hplain o ho
    rw [hptrs] at ho
    exact mt (hisPointer o) (hplain o ho)

theorem Chained.createdFunction (h : t.Chained) (functionName : Str) (returnType : TypeID) (args : List TypeID)
    (argNames : List Str) : (t.createFunctionType functionName returnType args argNames).Chained ∧
      (t.Plain → (t.createFunctionType functionName returnType args argNames).Plain) := by
  refine h.created rfl rfl ?_ ?_
  · intro id hid
    unfold getTypePtrByID createFunctionType
    dsimp only
    rw [getElem?_insert_ite, if_neg hid.symm]
  · rintro ⟨p,hp⟩
    obtain ⟨h₁,h₂,h₃,h₄,h₅,_⟩ := getTypePtrByID_eq_none.mp (h.unused _ le_rfl)
    simp [getTypePtrByID, createFunctionType, h₁, h₂, h₃, h₄, h₅] at hp

theorem Chained.createdCompound (h : t.Chained) (structureName : Str) (members : List (TypeID × Str)) :
    (t.createCompoundType structureName members).Chained ∧
      (t.Plain → (t.createCompoundType structureName members).Plain) := by
  refine h.created rfl rfl ?_ ?_
  · intro id hid
    unfold getTypePtrByID createCompoundType
    dsimp only
    rw [getElem?_insert_ite, if_neg hid.symm]
  · rintro ⟨p,hp⟩
    obtain ⟨h₁,h₂,h₃,h₄,_,_⟩ := getTypePtrByID_eq_none.mp (h.unused _ le_rfl)
    simp [getTypePtrByID, createCompoundType, h₁, h₂, h₃, h₄] at hp

theorem Chained.of_construct {cfg : Configuration} {before : TypeSystem}
    (hnone : ∀ (id : TypeID) (p : PointerType), before.statics.simple[id]? ≠ some (.pointer p)) :
    (construct cfg before.statics).Chained ∧ (construct cfg before.statics).Plain := by
  have hok := (initBasicTypes_ok cfg before.statics_ok).1
  have hget : ∀ id, (construct cfg before.statics).getTypePtrByID id =
      (before.statics.initBasicTypes cfg).simple[id]? := by
    intro id
    simp [construct, getTypePtrByID, hok.compound, hok.function]
  have hempty : ∀ o k, (construct cfg before.statics).pointerAt o k = none := by
    intro o k
    simp [pointerAt, levels, construct]
  have hpointer : ∀ id, ¬ (construct cfg before.statics).IsPointer id := by
    rintro id ⟨p,hp⟩
    rw [hget, initBasicTypes_getElem? before.statics_ok] at hp
    cases hspecial : specialType? id with
    | some v =>
      obtain ⟨_,_,_,rfl⟩ := specialType?_some hspecial
      simp [hspecial] at hp
    | none =>
      rw [hspecial] at hp
      change (if _ then _ else _) = _ at hp
      split at hp
      · obtain ⟨_,_,hline⟩ := Option.map_eq_some_iff.mp hp
        cases hline
      · exact hnone id p hp
  refine ⟨⟨?_,?_,?_,?_,?_,?_⟩,?_⟩
  · intro id hid
    rw [hget]
    exact hok.unused id hid
  · intro o ho
    simp [construct] at ho
  · intro o k id hid
    rw [hempty] at hid
    cases hid
  · intro o k o' k' id hid
    rw [hempty] at hid
    cases hid
  · intro o k id hid
    rw [hempty] at hid
    cases hid
  · intro id hid
    exact absurd hid (hpointer id)
  · intro o _
    exact hpointer o

end TypeTables

namespace TypeCall

def next (t : TypeTables) (c : TypeCall) : Option TypeTables := (c.apply t).toOption

/-- The type that the call is about was there before the call: its id has been
given out. -/
def Known (t : TypeTables) : TypeCall → Prop
  | .generatePointerType x _ => x < t.statics.nextId
  | .getOrCreatePointerType x => x < t.statics.nextId
  | _ => True

def Right (t : TypeTables) (c : TypeCall) : Prop :=
  (∀ t', c.next t = some t' → t'.Canonical) ∧ match c with
    | .generatePointerType x (l + 1) => t.Agrees x (l + 1)
    | _ => True

def OnPlain (t : TypeTables) : TypeCall → Prop
  | .generatePointerType x (_ + 1) => ¬ t.IsPointer x
  | _ => True

variable {t t' : TypeTables} {c : TypeCall}

theorem next_chained (h : t.Chained) (hc : c.Known t) (hnext : c.next t = some t') :
    t'.Chained ∧ (t.Plain → c.OnPlain t → t'.Plain) := by
  cases c with
  | createFunctionType functionName returnType args argNames =>
    cases hnext
    obtain ⟨hchained,hplain⟩ := h.createdFunction functionName returnType args argNames
    exact ⟨hchained,fun h _ => hplain h⟩
  | createCompoundType structureName members =>
    cases hnext
    obtain ⟨hchained,hplain⟩ := h.createdCompound structureName members
    exact ⟨hchained,fun h _ => hplain h⟩
  | generatePointerType x level =>
    cases level with
    | zero => cases hnext
    | succ l =>
      obtain ⟨u,id,hrun,hu,hext,_⟩ := TypeTables.generatePointerType_spec h hc l
      rw [next, apply, hrun] at hnext
      cases hnext
      exact ⟨hu,fun hplain hx => hplain.extended h hext hc hx⟩
  | getOrCreatePointerType x =>
    obtain ⟨o,k,hfound⟩ := h.exists_found x
    obtain ⟨u,id,hrun,hu,hext,_⟩ := TypeTables.getOrCreatePointerType_spec h hc hfound
    rw [next, apply, hrun] at hnext
    cases hnext
    refine ⟨hu,fun hplain _ => ?_⟩
    rcases hfound with hid | ⟨rfl,rfl,hx⟩
    · obtain ⟨levels,he,_⟩ := TypeTables.entry_of_pointerAt hid
      exact hplain.extended h hext ((h.older o k x hid).trans hc) (hplain o (TypeTables.mem_pointers_iff.mpr ⟨levels,he⟩))
    · exact hplain.extended h hext hc hx

theorem right_iff (h : t.Chained) (hc : c.Known t) (hcanonical : ∀ t', c.next t = some t' → t'.Canonical) :
    c.Right t ↔ c.OnPlain t := by
  unfold Right
  rw [and_iff_right hcanonical]
  cases c with
  | createFunctionType _ _ _ _ => exact Iff.rfl
  | createCompoundType _ _ => exact Iff.rfl
  | getOrCreatePointerType _ => exact Iff.rfl
  | generatePointerType x level =>
    cases level with
    | zero => exact Iff.rfl
    | succ l => exact TypeTables.agrees_iff h hc l

end TypeCall

/-- In a type system where nothing else made pointer types, in every run on types
that are there: the pointer types are canonical in every state and the two functions
agree at every call, exactly when `GeneratePointerType` is never given a pointer
type. -/
theorem pointers_canonical_iff (cfg : Configuration) (before : TypeSystem)
    (hnone : ∀ (id : TypeID) (p : PointerType), before.statics.simple[id]? ≠ some (.pointer p)) (calls : List TypeCall)
    (hknown : Along TypeCall.next (fun t c => c.Known t) calls (TypeTables.construct cfg before.statics)) :
    Along TypeCall.next (fun t c => c.Right t) calls (TypeTables.construct cfg before.statics) ↔
      Along TypeCall.next (fun t c => c.OnPlain t) calls (TypeTables.construct cfg before.statics) := by
  obtain ⟨hchained,hplain⟩ := @TypeTables.Chained.of_construct cfg before hnone
  constructor
  · intro hright
    apply Along.of_invariant (I := TypeTables.Chained) _ _ hchained (Along.and.mpr ⟨hknown,hright⟩)
    · intro t c t' h hc hnext
      exact (TypeCall.next_chained h hc.1 hnext).1
    · intro t c h hc
      exact (TypeCall.right_iff h hc.1 hc.2.1).mp hc.2
  · intro honPlain
    apply Along.of_invariant (I := fun t => t.Chained ∧ t.Plain) _ _ ⟨hchained,hplain⟩
      (Along.and.mpr ⟨hknown,honPlain⟩)
    · intro t c t' h hc hnext
      obtain ⟨h',hkeep⟩ := TypeCall.next_chained h.1 hc.1 hnext
      exact ⟨h',hkeep h.2 hc.2⟩
    · intro t c h hc
      apply (TypeCall.right_iff h.1 hc.1 _).mpr hc.2
      intro t' hnext
      obtain ⟨h',hkeep⟩ := TypeCall.next_chained h.1 hc.1 hnext
      exact h'.canonical (hkeep h.2 hc.2)

def pointerStart : TypeTables := TypeTables.construct (intConfig true) TypeSystem.initial.statics

def origTypeOf (t : TypeTables) (id : TypeID) : Option TypeID :=
  match t.getTypePtrByID id with
  | some (.pointer p) => some p.origType
  | _ => none

theorem origTypeOf_some {t : TypeTables} {id y : TypeID} (h : origTypeOf t id = some y) :
    ∃ p, t.getTypePtrByID id = some (.pointer p) ∧ p.origType = y := by
  unfold origTypeOf at h
  split at h
  · rename_i p hp
    exact ⟨p,hp,Option.some.inj h⟩
  · cases h

theorem initial_noPointer (id : TypeID) (p : PointerType) :
    TypeSystem.initial.statics.simple[id]? ≠ some (.pointer p) := by
  simp [TypeSystem.initial, TypeStatics.initial]

def pointerToInt : TypeTables := (pointerStart.getOrCreatePointerType 10).1

def pointerToPointer : TypeTables := (pointerToInt.getOrCreatePointerType 11).1

theorem next_pointerStart : TypeCall.next pointerStart (.getOrCreatePointerType 10) = some pointerToInt := rfl

theorem next_pointerToInt : TypeCall.next pointerToInt (.getOrCreatePointerType 11) = some pointerToPointer := rfl

/-- Each of the calls is on a type that is there. -/
theorem pointerCalls_known {c : TypeCall} (hc : c.Known pointerToPointer) :
    Along TypeCall.next (fun t c => c.Known t) [.getOrCreatePointerType 10,.getOrCreatePointerType 11,c] pointerStart := by
  simp only [Along.cons_iff next_pointerStart, Along.cons_iff next_pointerToInt]
  refine ⟨?_,?_,hc,fun _ _ => trivial⟩
  · exact (by decide +kernel : (10 : TypeID) < pointerStart.statics.nextId)
  · exact (by decide +kernel : (11 : TypeID) < pointerToInt.statics.nextId)

/-- 12 and 13 both point to 11. -/
theorem pointerTwice_notCanonical :
    Along TypeCall.next (fun t c => c.Known t)
      [.getOrCreatePointerType 10,.getOrCreatePointerType 11,.generatePointerType 11 1] pointerStart ∧
    ¬ Along TypeCall.next (fun t c => c.Right t)
      [.getOrCreatePointerType 10,.getOrCreatePointerType 11,.generatePointerType 11 1] pointerStart := by
  refine ⟨pointerCalls_known (by decide +kernel : (11 : TypeID) < pointerToPointer.statics.nextId),?_⟩
  simp only [Along.cons_iff next_pointerStart, Along.cons_iff next_pointerToInt]
  rintro ⟨_,_,⟨hcanonical,_⟩,_⟩
  have hrun : (TypeCall.next pointerToPointer (.generatePointerType 11 1)).map (fun t => (origTypeOf t 12,origTypeOf t 13)) =
      some (some 11,some 11) := by
    decide +kernel
  obtain ⟨t,ht,horig⟩ := Option.map_eq_some_iff.mp hrun
  rw [Prod.mk.injEq] at horig
  obtain ⟨p,hp,horig₁⟩ := origTypeOf_some horig.1
  obtain ⟨p',hp',horig₂⟩ := origTypeOf_some horig.2
  exact absurd (hcanonical t ht 12 13 p p' hp hp' (horig₁.trans horig₂.symm)) (by decide)

/-- The same types, when the pointer to the pointer comes from the `INT`. -/
theorem pointersToInt_canonical :
    Along TypeCall.next (fun t c => c.Right t)
      [.getOrCreatePointerType 10,.getOrCreatePointerType 11,.generatePointerType 10 3] pointerStart := by
  apply (pointers_canonical_iff (intConfig true) .initial initial_noPointer
    [.getOrCreatePointerType 10,.getOrCreatePointerType 11,.generatePointerType 10 3] _).mpr
  · change Along _ _ _ pointerStart
    simp only [Along.cons_iff next_pointerStart, Along.cons_iff next_pointerToInt]
    refine ⟨trivial,trivial,?_,fun _ _ => trivial⟩
    rintro ⟨p,hp⟩
    have hkind : (pointerToPointer.getTypePtrByID 10).map VarType.kind = some .simple := by decide +kernel
    rw [hp] at hkind
    cases hkind
  · exact pointerCalls_known (by decide +kernel : (10 : TypeID) < pointerToPointer.statics.nextId)

end PolyGlot
