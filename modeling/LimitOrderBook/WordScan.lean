import LimitOrderBook.Bitmap

/-! # Bitmap scans, access by access

The scans of a bitmap as a machine runs them: a word is read by its index, and there is none outside
the array; a shift is by fewer than 64 bits; leading and trailing zeros are counted of nonzero words
only; and a loop fails when its fuel is out.

From a bit of the array none of that happens, with as much fuel as there are words: the scans end
with the nearest set bit (`scanBelow?_eq`, `scanAbove?_eq`). -/

namespace Bitmap

section code

/-- `x << n`, undefined from 64 on. -/
def shl? (x : BitVec 64) (n : ℕ) : Option (BitVec 64) := if n < 64 then some (x <<< n) else none

/-- `x >> n`, undefined from 64 on. -/
def shr? (x : BitVec 64) (n : ℕ) : Option (BitVec 64) := if n < 64 then some (x >>> n) else none

/-- `__builtin_clzll`, undefined at zero. -/
def clz? (x : BitVec 64) : Option ℕ := if x ≠ 0 then some x.clz.toNat else none

/-- `__builtin_ctzll`, undefined at zero. -/
def ctz? (x : BitVec 64) : Option ℕ := if x ≠ 0 then some x.ctz.toNat else none

/-- The bits below bit `b`. -/
def maskBelow? (b : ℕ) : Option (BitVec 64) :=
  if b = 0 then some 0 else shr? (BitVec.allOnes 64) (64 - b)

/-- The bits above bit `b`. -/
def maskAbove? (b : ℕ) : Option (BitVec 64) :=
  if b = 63 then some 0 else shl? (BitVec.allOnes 64) (b + 1)

variable (words : List (BitVec 64))

/-- The loop downwards, with `word` at position `w`. -/
def scanDown? : ℕ → ℕ → BitVec 64 → Option (Option ℕ)
  | 0, _, _ => none
  | fuel + 1, w, word =>
      if word ≠ 0 then do
        let zeros ← clz? word
        some (some ((w <<< 6) + 63 - zeros))
      else if w = 0 then some none
      else do
        let word ← words[w - 1]?
        scanDown? fuel (w - 1) word

/-- The loop upwards, with `word` at position `w`. -/
def scanUp? : ℕ → ℕ → BitVec 64 → Option (Option ℕ)
  | 0, _, _ => none
  | fuel + 1, w, word =>
      if word ≠ 0 then do
        let zeros ← ctz? word
        some (some ((w <<< 6) + zeros))
      else if w + 1 = words.length then some none
      else do
        let word ← words[w + 1]?
        scanUp? fuel (w + 1) word

def scanBelow? (fuel i : ℕ) : Option (Option ℕ) := do
  let word ← words[i >>> 6]?
  let mask ← maskBelow? (i &&& 63)
  scanDown? words fuel (i >>> 6) (word &&& mask)

def scanAbove? (fuel i : ℕ) : Option (Option ℕ) := do
  let word ← words[i >>> 6]?
  let mask ← maskAbove? (i &&& 63)
  scanUp? words fuel (i >>> 6) (word &&& mask)

end code

section agreement

variable {words : List (BitVec 64)}

theorem getElem?_of_lt {w : ℕ} (hw : w < words.length) : words[w]? = some (words.getD w 0) := by
  rw [List.getElem?_eq_getElem hw, List.getD_eq_getElem _ _ hw]

theorem and_sixtyThree_lt (i : ℕ) : i &&& 63 < 64 := by
  rw [and_sixtyThree]
  omega

theorem maskBelow?_eq (b : ℕ) :
    maskBelow? b = some (if b = 0 then 0 else BitVec.allOnes 64 >>> (64 - b)) := by
  unfold maskBelow?
  split_ifs
  · rfl
  · exact if_pos (by omega)

theorem maskAbove?_eq {b : ℕ} (hb : b < 64) :
    maskAbove? b = some (if b = 63 then 0 else BitVec.allOnes 64 <<< (b + 1)) := by
  unfold maskAbove?
  split_ifs
  · rfl
  · exact if_pos (by omega)

/-- **The loop downwards** stays inside the array, and ends. -/
theorem scanDown?_eq : ∀ {fuel w : ℕ} {word : BitVec 64}, w < fuel → w < words.length →
    scanDown? words fuel w word = some (scanDown words w word)
  | fuel + 1, w, word, hfuel, hw => by
      unfold scanDown?
      by_cases hword : word ≠ 0
      · have hzeros : clz? word = some word.clz.toNat := if_pos hword
        rw [if_pos hword, hzeros]
        cases w with
        | zero => rw [scanDown, if_pos hword]; rfl
        | succ w => rw [scanDown, if_pos hword]; rfl
      · rw [if_neg hword]
        cases w with
        | zero => rw [if_pos rfl, scanDown, if_neg hword]
        | succ w =>
            rw [if_neg (Nat.succ_ne_zero w), scanDown, if_neg hword, Nat.add_sub_cancel,
              getElem?_of_lt (by omega)]
            exact scanDown?_eq (by omega) (by omega)

/-- **The loop upwards** stays inside the array, and ends. -/
theorem scanUp?_eq : ∀ {fuel n w : ℕ} {word : BitVec 64}, words.length ≤ w + fuel →
    words.length ≤ w + 1 + n → w < words.length →
    scanUp? words fuel w word = some (scanUp words n w word)
  | 0, _, w, _, hfuel, _, hw => by omega
  | fuel + 1, n, w, word, hfuel, hn, hw => by
      unfold scanUp?
      by_cases hword : word ≠ 0
      · have hzeros : ctz? word = some word.ctz.toNat := if_pos hword
        rw [if_pos hword, hzeros]
        cases n with
        | zero => rw [scanUp, if_pos hword]; rfl
        | succ n => rw [scanUp, if_pos hword]; rfl
      · rw [if_neg hword]
        cases n with
        | zero => rw [if_pos (by omega), scanUp, if_neg hword]
        | succ n =>
            rw [scanUp, if_neg hword]
            by_cases hend : w + 1 = words.length
            · rw [if_pos hend, if_pos hend]
            · rw [if_neg hend, if_neg hend, getElem?_of_lt (by omega)]
              exact scanUp?_eq (by omega) (by omega) (by omega)

/-- **The scan downwards from a bit of the array** is defined. -/
theorem scanBelow?_eq {fuel i : ℕ} (hfuel : words.length ≤ fuel) (hi : i / 64 < words.length) :
    scanBelow? words fuel i = some (scanBelow words i) := by
  have hw : i >>> 6 < words.length := by rwa [shiftRight_six]
  unfold scanBelow? scanBelow
  rw [getElem?_of_lt hw, maskBelow?_eq]
  exact scanDown?_eq (by omega) hw

/-- **The scan upwards from a bit of the array** is defined. -/
theorem scanAbove?_eq {fuel i : ℕ} (hfuel : words.length ≤ fuel) (hi : i / 64 < words.length) :
    scanAbove? words fuel i = some (scanAbove words i) := by
  have hw : i >>> 6 < words.length := by rwa [shiftRight_six]
  unfold scanAbove? scanAbove
  rw [getElem?_of_lt hw, maskAbove?_eq (and_sixtyThree_lt i)]
  exact scanUp?_eq (by omega) (by omega) hw

end agreement

end Bitmap
