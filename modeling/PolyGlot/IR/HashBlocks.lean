import PolyGlot.IR.Text
import PolyGlot.Support.Mixing

set_option autoImplicit false

/-! # Collisions of the hash

`ducking_hash` takes in a key eight bytes at a time, and each step is one-to-one
in the state and in the word. So keys of one length that differ in one block
only never collide: what is a duplicate by its hash and not by its text differs
in its length or in two blocks.
-/
namespace PolyGlot

open Mixing

theorem byteOf_toNat_lt (c : Char) : (byteOf c).toNat < 256 := by
  unfold byteOf
  rw [UInt64.toNat_ofNat']
  omega

def littleEndian (s : Str) : ℕ := Nat.ofDigits (2 ^ 8) (s.map fun c => (byteOf c).toNat)

theorem wordOf_toNat (s : Str) (k : ℕ) (h : k + s.length ≤ 8) :
    (wordOf (UInt64.ofNat (8 * k)) s).toNat = 2 ^ (8 * k) * littleEndian s := by
  induction s generalizing k with
  | nil => rfl
  | cons c s ih =>
    rw [List.length_cons] at h
    have hshift : UInt64.ofNat (8 * k) + 8 = UInt64.ofNat (8 * (k + 1)) := by
      rw [Nat.mul_succ, UInt64.ofNat_add]
      rfl
    have hmod : (UInt64.ofNat (8 * k)).toNat % 64 = 8 * k := by
      rw [UInt64.toNat_ofNat']
      omega
    have hfits : (byteOf c).toNat * 2 ^ (8 * k) < 2 ^ 64 := by
      calc (byteOf c).toNat * 2 ^ (8 * k) < 2 ^ 8 * 2 ^ (8 * k) :=
            Nat.mul_lt_mul_of_pos_right (byteOf_toNat_lt c) (Nat.pow_pos (by decide))
        _ = 2 ^ (8 + 8 * k) := (Nat.pow_add ..).symm
        _ ≤ 2 ^ 64 := Nat.pow_le_pow_right (by decide) (by omega)
    have hnext := ih (k + 1) (by omega)
    rw [wordOf, UInt64.toNat_xor, hshift, hnext, UInt64.toNat_shiftLeft, hmod, Nat.shiftLeft_eq, Nat.mod_eq_of_lt hfits]
    have hcons : littleEndian (c :: s) = (byteOf c).toNat + 2 ^ 8 * littleEndian s := by
      simp [littleEndian, Nat.ofDigits_cons]
    rw [hcons, ← xor_shift_eq_add (byteOf_toNat_lt c), Nat.mul_comm (2 ^ (8 * k)), ← Nat.shiftLeft_eq, ← Nat.shiftLeft_eq,
      Nat.shiftLeft_xor_distrib, Nat.shiftLeft_eq _ (8 * k), Nat.shiftLeft_eq _ (8 * k)]
    congr 1
    ring

theorem wordOf_injective {s s' : Str} (hlen : s.length = s'.length) (hle : s.length ≤ 8) (h : wordOf 0 s = wordOf 0 s') :
    s.map byteOf = s'.map byteOf := by
  have hvalue : ∀ t : Str, t.length ≤ 8 → (wordOf 0 t).toNat = littleEndian t := by
    intro t ht
    simpa using wordOf_toNat t 0 (by omega)
  have hsame : littleEndian s = littleEndian s' := by rw [← hvalue s hle, ← hvalue s' (hlen ▸ hle), h]
  have hbytes : ∀ t : Str, ∀ b ∈ t.map fun c => (byteOf c).toNat, b < 2 ^ 8 := by
    intro t b hb
    obtain ⟨c,_,rfl⟩ := List.mem_map.mp hb
    exact byteOf_toNat_lt c
  have hdigits := Nat.ofDigits_inj_of_len_eq (b := 2 ^ 8) (by decide) (by simpa using hlen) (hbytes s) (hbytes s') hsame
  apply List.map_injective_iff.mpr fun a b => UInt64.toNat_inj.mp
  rw [List.map_map, List.map_map]
  exact hdigits

theorem wordOf_congr {s s' : Str} (h : s.map byteOf = s'.map byteOf) (shift : UInt64) : wordOf shift s = wordOf shift s' := by
  induction s generalizing s' shift with
  | nil => rw [List.map_eq_nil_iff.mp h.symm]
  | cons c s ih =>
    cases s' with
    | nil => cases h
    | cons c' s' =>
      rw [List.map_cons, List.map_cons, List.cons.injEq] at h
      rw [wordOf, wordOf, h.1, ih h.2]

theorem hashMul_injective : Function.Injective fun h : UInt64 => h * hashMul := by
  intro h h' heq
  have hunit : hashMul.toBitVec * 0x5f7a0ea7e59b19bd#64 = 1#64 := by decide
  exact UInt64.toBitVec_inj.mp (mul_injective hunit (congrArg UInt64.toBitVec heq))

theorem fold_injective : Function.Injective fun h : UInt64 => h ^^^ (h >>> 47) := by
  intro h h' heq
  exact UInt64.toBitVec_inj.mp (xorShift_injective (r := 47) (by decide) (congrArg UInt64.toBitVec heq))

theorem hashWord_state (k : UInt64) : Function.Injective (hashWord · k) := by
  intro h h' heq
  exact (UInt64.xor_left_inj _).mp (hashMul_injective heq)

theorem hashWord_word (h : UInt64) : Function.Injective (hashWord h) := by
  intro k k' heq
  have hmixed := (UInt64.xor_right_inj h).mp (hashMul_injective heq)
  exact hashMul_injective (fold_injective (hashMul_injective hmixed))

theorem hashLoop_whole {block : Str} (hlen : block.length = 8) (h : UInt64) (after : Str) :
    hashLoop h (block ++ after) = hashLoop (hashWord h (wordOf 0 block)) after := by
  match block, hlen with
  | [_,_,_,_,_,_,_,_], _ => rfl

theorem hashLoop_short {tail : Str} (hne : tail ≠ []) (hlen : tail.length < 8) (h : UInt64) :
    hashLoop h tail = (h ^^^ wordOf 0 tail) * hashMul := by
  match tail, hne, hlen with
  | [_], _, _ | [_,_], _, _ | [_,_,_], _, _ | [_,_,_,_], _, _ | [_,_,_,_,_], _, _ | [_,_,_,_,_,_], _, _
  | [_,_,_,_,_,_,_], _, _ => rfl

/-- A key is at its end, or a whole block comes first. -/
theorem blocks_induction {P : Str → Prop} (hshort : ∀ s : Str, s.length < 8 → P s)
    (hwhole : ∀ block after : Str, block.length = 8 → P after → P (block ++ after)) (s : Str) : P s := by
  induction hn : s.length using Nat.strong_induction_on generalizing s with
  | _ n ih =>
    by_cases hlen : s.length < 8
    · exact hshort s hlen
    · rw [← List.take_append_drop 8 s]
      apply hwhole
      · rw [List.length_take]
        omega
      · apply ih (s.drop 8).length _ _ rfl
        rw [List.length_drop]
        omega

/-- The loop loses nothing of the state. -/
theorem hashLoop_state (s : Str) : Function.Injective (hashLoop · s) := by
  induction s using blocks_induction with
  | hshort s hlen =>
    intro h h' heq
    cases s with
    | nil => exact heq
    | cons c s =>
      dsimp only at heq
      rw [hashLoop_short (by simp) hlen, hashLoop_short (by simp) hlen] at heq
      exact (UInt64.xor_left_inj _).mp (hashMul_injective heq)
  | hwhole block after hlen ih =>
    intro h h' heq
    dsimp only at heq
    rw [hashLoop_whole hlen, hashLoop_whole hlen] at heq
    exact hashWord_state _ (ih heq)

/-- Whole blocks are taken in first. -/
theorem hashLoop_append {before : Str} (hbefore : 8 ∣ before.length) (h : UInt64) (s : Str) :
    hashLoop h (before ++ s) = hashLoop (hashLoop h before) s := by
  induction before using blocks_induction generalizing h with
  | hshort before hlen =>
    obtain rfl := List.length_eq_zero_iff.mp (Nat.eq_zero_of_dvd_of_lt hbefore hlen)
    rfl
  | hwhole block after hlen ih =>
    rw [List.append_assoc, hashLoop_whole hlen, hashLoop_whole hlen]
    apply ih
    rw [List.length_append, hlen] at hbefore
    exact (Nat.dvd_add_right (Nat.dvd_refl 8)).mp hbefore

/-- The block is whole, or it is the end of the key. -/
theorem hashLoop_block_iff {block block' after : Str} (hlen : block.length = block'.length)
    (hblock : block.length = 8 ∨ block.length < 8 ∧ after = []) (h : UInt64) :
    hashLoop h (block ++ after) = hashLoop h (block' ++ after) ↔ block.map byteOf = block'.map byteOf := by
  rcases hblock with hwhole | ⟨hshort,rfl⟩
  · rw [hashLoop_whole hwhole, hashLoop_whole (hlen ▸ hwhole)]
    constructor
    · intro heq
      exact wordOf_injective hlen hwhole.le (hashWord_word h (hashLoop_state after heq))
    · intro hbytes
      rw [wordOf_congr hbytes]
  · rw [List.append_nil, List.append_nil]
    cases block with
    | nil =>
      rw [List.length_eq_zero_iff.mp hlen.symm]
      simp
    | cons c block =>
      have hne : block' ≠ [] := List.ne_nil_of_length_eq_add_one hlen.symm
      rw [hashLoop_short (by simp) hshort, hashLoop_short hne (hlen ▸ hshort)]
      constructor
      · intro heq
        exact wordOf_injective hlen hshort.le ((UInt64.xor_right_inj h).mp (hashMul_injective heq))
      · intro hbytes
        rw [wordOf_congr hbytes]

/-- Keys that differ in one block only have different hashes. -/
theorem duckingHash_block_iff {before block block' after : Str} (hbefore : 8 ∣ before.length)
    (hlen : block.length = block'.length) (hblock : block.length = 8 ∨ block.length < 8 ∧ after = []) :
    duckingHash (before ++ block ++ after) = duckingHash (before ++ block' ++ after) ↔
      block.map byteOf = block'.map byteOf := by
  have hlength : (before ++ block ++ after).length = (before ++ block' ++ after).length := by simp [hlen]
  unfold duckingHash
  dsimp only
  rw [hlength, List.append_assoc, List.append_assoc, hashLoop_append hbefore, hashLoop_append hbefore,
    ← hashLoop_block_iff hlen hblock]
  constructor
  · intro heq
    exact fold_injective (hashMul_injective (fold_injective heq))
  · intro heq
    rw [heq]

theorem assignments_hash : duckingHash "let a = 1;".toList ≠ duckingHash "let a = 2;".toList := by
  have hiff : duckingHash ("let a = ".toList ++ "1;".toList ++ []) = duckingHash ("let a = ".toList ++ "2;".toList ++ []) ↔ _ :=
    duckingHash_block_iff (by decide) (by decide) (.inr (by decide))
  intro heq
  exact absurd (hiff.mp heq) (by decide)

end PolyGlot
