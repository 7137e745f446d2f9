import PolyGlot.IR.Basic
import Mathlib.Data.List.TakeWhile
import Mathlib.Data.List.DropRight

set_option autoImplicit false

/-! # Rendering

The string helpers of `utils.cpp`, `IR::ToString`, and the token sequence that a
rendering spreads over the page.
-/
namespace PolyGlot

def intText (i : ℤ) : Str :=
  if i < 0 then '-' :: Nat.toDigits 10 i.natAbs else Nat.toDigits 10 i.natAbs

def isSpace (c : Char) : Bool := c.toNat = 32 || (9 ≤ c.toNat && c.toNat ≤ 13)

def intMin : ℤ := -2 ^ 31
def intMax : ℤ := 2 ^ 31 - 1

def signed (negative : Bool) (n : ℕ) : ℤ := if negative then -(n : ℤ) else n

def splitSign : Str → Bool × Str
  | '-' :: s => (true, s)
  | '+' :: s => (false, s)
  | s => (false, s)

/-- `std::stoi`; `none` where it throws `invalid_argument` or `out_of_range`. -/
def stoi (s : Str) : Option ℤ :=
  let body := splitSign (s.dropWhile isSpace)
  let digits := body.2.takeWhile Char.isDigit
  let v := signed body.1 (Nat.ofDigitChars 10 digits 0)
  if digits = [] then none else if intMin ≤ v ∧ v ≤ intMax then some v else none

theorem splitSign_digit {c : Char} (hc : c.isDigit) (s : Str) : splitSign (c :: s) = (false, c :: s) := by
  unfold splitSign
  split <;> simp_all [Char.isDigit]

theorem isSpace_digit {c : Char} (hc : c.isDigit) : isSpace c = false := by
  simp only [Char.isDigit, ge_iff_le, Bool.and_eq_true, decide_eq_true_eq, UInt32.le_iff_toNat_le] at hc
  have h : 48 ≤ c.toNat := hc.1
  simp only [isSpace, Bool.or_eq_false_iff, Bool.and_eq_false_iff, decide_eq_false_iff_not]
  omega

/-- Reading back what an `int` prints gives the `int`. -/
theorem stoi_intText {i : ℤ} (hi : intMin ≤ i ∧ i ≤ intMax) : stoi (intText i) = some i := by
  have hd : ∀ c ∈ Nat.toDigits 10 i.natAbs, c.isDigit := fun c hc =>
    Nat.isDigit_of_mem_toDigits (by decide) (by decide) hc
  obtain ⟨c,cs,hcs⟩ := List.exists_cons_of_ne_nil (Nat.toDigits_ne_nil (n := i.natAbs) (b := 10))
  have hc : c.isDigit := hd c (by simp [hcs])
  have htake : (Nat.toDigits 10 i.natAbs).takeWhile Char.isDigit = Nat.toDigits 10 i.natAbs :=
    List.takeWhile_eq_self_iff.mpr hd
  have hvalue := Nat.ofDigitChars_ten_toDigits (n := i.natAbs)
  by_cases h : i < 0
  · have hs : splitSign ((intText i).dropWhile isSpace) = (true, Nat.toDigits 10 i.natAbs) := by
      simp [intText, h, isSpace, splitSign]
    have hv : signed true i.natAbs = i := by simp only [signed, if_true]; omega
    simp only [stoi, hs, htake, hvalue, hv]
    rw [if_neg Nat.toDigits_ne_nil, if_pos hi]
  · have hs : splitSign ((intText i).dropWhile isSpace) = (false, Nat.toDigits 10 i.natAbs) := by
      simp only [intText, h, if_false, hcs, List.dropWhile_cons, isSpace_digit hc, Bool.false_eq_true]
      exact splitSign_digit hc cs
    have hv : signed false i.natAbs = i := by simp only [signed, Bool.false_eq_true, if_false]; omega
    simp only [stoi, hs, htake, hvalue, hv]
    rw [if_neg Nat.toDigits_ne_nil, if_pos hi]

/-- `trim_string` compacts in place; the character after a `;`, `{` or `}` is
turned into a newline when it is a space, before it is looked at. -/
def breaksLine (c : Char) : Bool := c = ';' || c = '}' || c = '{'

/-- `expectSpace` is the flag of the loop; `brk` says that the character before
was one that breaks the line. -/
def trimLoop (expectSpace brk : Bool) : Str → Str
  | [] => []
  | c :: s =>
    let c := if brk && c = ' ' then '\n' else c
    if c = ' ' then
      if expectSpace then c :: trimLoop false false s else trimLoop false false s
    else c :: trimLoop true (breaksLine c) s

def trimString (s : Str) : Str := trimLoop false false s

def stripString (s : Str) : Str :=
  s.rdropWhile (fun c => c = ' ' || c = '\n' || c = '\t')

def trim (s : Str) : Str := (s.rdropWhile isSpace).dropWhile isSpace

def byteOf (c : Char) : UInt64 := UInt64.ofNat (c.toNat % 256)

def wordOf : UInt64 → Str → UInt64
  | _, [] => 0
  | shift, c :: s => (byteOf c <<< shift) ^^^ wordOf (shift + 8) s

def hashMul : UInt64 := 0xc6a4a7935bd1e995

def hashWord (h k : UInt64) : UInt64 :=
  let k := k * hashMul
  let k := k ^^^ (k >>> 47)
  (h ^^^ (k * hashMul)) * hashMul

def hashLoop (h : UInt64) : Str → UInt64
  | c₀ :: c₁ :: c₂ :: c₃ :: c₄ :: c₅ :: c₆ :: c₇ :: s =>
    hashLoop (hashWord h (wordOf 0 [c₀, c₁, c₂, c₃, c₄, c₅, c₆, c₇])) s
  | [] => h
  | tail => (h ^^^ wordOf 0 tail) * hashMul

def duckingHash (key : Str) : UInt64 :=
  let h := hashLoop (0xdeadbeefdeadbeef ^^^ (UInt64.ofNat key.length * hashMul)) key
  let h := (h ^^^ (h >>> 47)) * hashMul
  h ^^^ (h >>> 47)

namespace IR

def dataText : IRData → Str
  | .monostate => []
  | .string s => s
  | .int i => intText i
  | .double d => d.text

def opText (o : Option IROperator) (field : IROperator → Str) (sep : Str) : Str :=
  match o with
  | none => []
  | some op => field op ++ sep

def toStringImpl : IR → Str
  | .nil => []
  | .node n l r =>
    if n.containData then dataText n.data
    else opText n.op IROperator.opPrefix [' '] ++
      (if l = .nil then [] else toStringImpl l ++ [' ']) ++
      opText n.op IROperator.opMiddle [' '] ++
      (if r = .nil then [] else toStringImpl r ++ [' ']) ++
      opText n.op IROperator.opSuffix []

def render (t : IR) : Str := trimString (toStringImpl t)

def hash (t : IR) : UInt64 := duckingHash (render t)

end IR

def skipEmpty (l : List Str) : List Str := l.filter (· ≠ [])

@[simp] theorem skipEmpty_nil : skipEmpty [] = [] := rfl
@[simp] theorem skipEmpty_append (l m : List Str) : skipEmpty (l ++ m) = skipEmpty l ++ skipEmpty m :=
  List.filter_append ..
@[simp] theorem skipEmpty_skipEmpty (l : List Str) : skipEmpty (skipEmpty l) = skipEmpty l := by
  simp [skipEmpty]
@[simp] theorem skipEmpty_empty : skipEmpty [[]] = [] := rfl

namespace IR

def opTokens (o : Option IROperator) (field : IROperator → Str) : List Str :=
  match o with
  | none => []
  | some op => skipEmpty [field op]

/-- The tokens of a tree: a data node gives its text, any other node its prefix,
the tokens of its left child, its middle, the tokens of its right child and its
suffix. -/
def tokens : IR → List Str
  | .nil => []
  | .node n l r =>
    if n.containData then skipEmpty [dataText n.data]
    else opTokens n.op IROperator.opPrefix ++ tokens l ++ opTokens n.op IROperator.opMiddle ++
      tokens r ++ opTokens n.op IROperator.opSuffix

end IR

end PolyGlot
