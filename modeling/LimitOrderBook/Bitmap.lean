import Mathlib.Data.List.Basic
import Mathlib.Data.List.GetD
import Mathlib.Tactic.Common

/-! # Bitmaps of 64-bit words

A bitmap is a list of words; bit `i` is bit `i % 64` of word `i / 64`, and bits past the last
word are clear.  `setBit` and `clearBit` change one bit.  `scanDown` and `scanUp` search the
words from a given (masked) word downwards or upwards, 64 bits at a time, with a count of
leading or trailing zeros in the first nonzero word; `scanBelow` and `scanAbove` start them from
a bit and find the nearest set bit strictly below or above it. -/

namespace Bitmap

/-- Bit `i`. -/
def bit (words : List (BitVec 64)) (i : ℕ) : Bool := (words.getD (i >>> 6) 0).getLsbD (i &&& 63)

def setBit (words : List (BitVec 64)) (i : ℕ) : List (BitVec 64) :=
  words.set (i >>> 6) (words.getD (i >>> 6) 0 ||| (1#64 <<< (i &&& 63)))

def clearBit (words : List (BitVec 64)) (i : ℕ) : List (BitVec 64) :=
  words.set (i >>> 6) (words.getD (i >>> 6) 0 &&& ~~~(1#64 <<< (i &&& 63)))

/-- Search downwards from `word`, which stands at position `w`. -/
def scanDown (words : List (BitVec 64)) : ℕ → BitVec 64 → Option ℕ
  | 0, word => if word ≠ 0 then some (63 - word.clz.toNat) else none
  | w + 1, word =>
      if word ≠ 0 then some (((w + 1) <<< 6) + 63 - word.clz.toNat)
      else scanDown words w (words.getD w 0)

/-- Search upwards from `word`, which stands at position `w`; at most `fuel` more words. -/
def scanUp (words : List (BitVec 64)) : ℕ → ℕ → BitVec 64 → Option ℕ
  | 0, w, word => if word ≠ 0 then some ((w <<< 6) + word.ctz.toNat) else none
  | fuel + 1, w, word =>
      if word ≠ 0 then some ((w <<< 6) + word.ctz.toNat)
      else if w + 1 = words.length then none
      else scanUp words fuel (w + 1) (words.getD (w + 1) 0)

/-- The nearest set bit below `i`. -/
def scanBelow (words : List (BitVec 64)) (i : ℕ) : Option ℕ :=
  scanDown words (i >>> 6) (words.getD (i >>> 6) 0 &&&
    (if i &&& 63 = 0 then 0 else BitVec.allOnes 64 >>> (64 - (i &&& 63))))

/-- The nearest set bit above `i`. -/
def scanAbove (words : List (BitVec 64)) (i : ℕ) : Option ℕ :=
  scanUp words words.length (i >>> 6) (words.getD (i >>> 6) 0 &&&
    (if i &&& 63 = 63 then 0 else BitVec.allOnes 64 <<< ((i &&& 63) + 1)))

/-! ### Words and positions -/

theorem shiftRight_six (i : ℕ) : i >>> 6 = i / 64 := Nat.shiftRight_eq_div_pow i 6

theorem and_sixtyThree (i : ℕ) : i &&& 63 = i % 64 := Nat.and_two_pow_sub_one_eq_mod i 6

theorem shiftLeft_six (w : ℕ) : w <<< 6 = w * 64 := Nat.shiftLeft_eq w 6

theorem bit_eq (words : List (BitVec 64)) (i : ℕ) :
    bit words i = (words.getD (i / 64) 0).getLsbD (i % 64) := by
  rw [bit, shiftRight_six, and_sixtyThree]

theorem getD_set {words : List (BitVec 64)} {w : ℕ} (hw : w < words.length) (x : BitVec 64)
    (v : ℕ) : (words.set w x).getD v 0 = if v = w then x else words.getD v 0 := by
  rw [List.getD_eq_getElem?_getD, List.getElem?_set]
  by_cases h : v = w
  · subst h
    simp [hw]
  · have h' : ¬ w = v := fun e => h e.symm
    simp [h, h', List.getD_eq_getElem?_getD]

theorem getLsbD_one_shiftLeft (k j : ℕ) (hk : k < 64) :
    (1#64 <<< k).getLsbD j = decide (j = k) := by
  rw [BitVec.getLsbD_shiftLeft, BitVec.getLsbD_one]
  by_cases h : j = k
  · simp [h, hk]
  · simp only [h, decide_false]
    by_cases h1 : j < k
    · simp [h1]
    · have : j - k ≠ 0 := by omega
      simp [this]

@[simp] theorem length_setBit (words : List (BitVec 64)) (i : ℕ) :
    (setBit words i).length = words.length := by simp [setBit]

@[simp] theorem length_clearBit (words : List (BitVec 64)) (i : ℕ) :
    (clearBit words i).length = words.length := by simp [clearBit]

theorem bit_setBit {words : List (BitVec 64)} {i : ℕ} (hi : i / 64 < words.length) (j : ℕ) :
    bit (setBit words i) j = (decide (j = i) || bit words j) := by
  rw [bit_eq, bit_eq, setBit, shiftRight_six, and_sixtyThree, getD_set hi]
  by_cases hw : j / 64 = i / 64
  · rw [if_pos hw, BitVec.getLsbD_or, getLsbD_one_shiftLeft _ _ (by omega), hw, Bool.or_comm]
    have : (j % 64 = i % 64) ↔ j = i := by omega
    simp [this]
  · have : j ≠ i := by rintro rfl; exact hw rfl
    simp [hw, this]

theorem bit_clearBit {words : List (BitVec 64)} {i : ℕ} (hi : i / 64 < words.length) (j : ℕ) :
    bit (clearBit words i) j = (!decide (j = i) && bit words j) := by
  rw [bit_eq, bit_eq, clearBit, shiftRight_six, and_sixtyThree, getD_set hi]
  by_cases hw : j / 64 = i / 64
  · have hlt : j % 64 < 64 := by omega
    rw [if_pos hw, BitVec.getLsbD_and, BitVec.getLsbD_not,
      getLsbD_one_shiftLeft _ _ (by omega), hw, Bool.and_comm]
    have : (j % 64 = i % 64) ↔ j = i := by omega
    simp [this, hlt]
  · have : j ≠ i := by rintro rfl; exact hw rfl
    simp [hw, this]

@[simp] theorem bit_replicate_zero (n i : ℕ) : bit (List.replicate n 0#64) i = false := by
  rw [bit_eq, List.getD_eq_getElem?_getD, List.getElem?_replicate]
  split_ifs <;> simp

/-! ### The highest and the lowest set bit of a word -/

theorem clz_le {x : BitVec 64} (hx : x ≠ 0) : x.clz.toNat ≤ 63 := by
  have := BitVec.clz_lt_iff_ne_zero.mpr hx
  rw [BitVec.lt_def] at this
  simp at this
  omega

theorem getLsbD_top {x : BitVec 64} (hx : x ≠ 0) : x.getLsbD (63 - x.clz.toNat) = true :=
  BitVec.getLsbD_true_clz_of_ne_zero (by omega) hx

theorem le_top {x : BitVec 64} (hx : x ≠ 0) {j : ℕ} (hj : x.getLsbD j = true) :
    j ≤ 63 - x.clz.toNat := by
  have h1 : 2 ^ j ≤ x.toNat := Nat.ge_two_pow_of_testBit (by rw [BitVec.testBit_toNat]; exact hj)
  have h2 := BitVec.toNat_lt_two_pow_sub_clz (x := x)
  have h3 := (Nat.pow_lt_pow_iff_right (by omega)).mp (Nat.lt_of_le_of_lt h1 h2)
  have := clz_le hx
  omega

theorem getLsbD_bottom {x : BitVec 64} (hx : x ≠ 0) : x.getLsbD x.ctz.toNat = true :=
  BitVec.getLsbD_true_ctz_of_ne_zero hx

theorem bottom_le {x : BitVec 64} {j : ℕ} (hj : x.getLsbD j = true) : x.ctz.toNat ≤ j := by
  by_contra h
  rw [BitVec.getLsbD_false_of_lt_ctz (by omega)] at hj
  cases hj

theorem getLsbD_lt {x : BitVec 64} {j : ℕ} (hj : x.getLsbD j = true) : j < 64 := by
  by_contra h
  rw [BitVec.getLsbD_of_ge _ _ (by omega)] at hj
  cases hj

/-! ### The scans -/

/-- The bits the downward scan has in front of it. -/
def Down (words : List (BitVec 64)) (w : ℕ) (word : BitVec 64) (i : ℕ) : Prop :=
  i / 64 < w ∧ bit words i = true ∨ i / 64 = w ∧ word.getLsbD (i % 64) = true

theorem scanDown_hit {words : List (BitVec 64)} {w : ℕ} {word : BitVec 64} (h : word ≠ 0) :
    Down words w word (w * 64 + 63 - word.clz.toNat) ∧
      ∀ j, Down words w word j → j ≤ w * 64 + 63 - word.clz.toNat := by
  have hle := clz_le h
  refine ⟨Or.inr ⟨by omega, ?_⟩, ?_⟩
  · have : (w * 64 + 63 - word.clz.toNat) % 64 = 63 - word.clz.toNat := by omega
    rw [this]
    exact getLsbD_top h
  · rintro j (⟨hj, -⟩ | ⟨hj, hb⟩)
    · omega
    · have := le_top h hb
      omega

/-- The downward scan finds the highest bit in front of it. -/
theorem scanDown_spec (words : List (BitVec 64)) : ∀ (w : ℕ) (word : BitVec 64),
    (∀ i, scanDown words w word = some i →
      Down words w word i ∧ ∀ j, Down words w word j → j ≤ i) ∧
    (scanDown words w word = none → ∀ j, ¬ Down words w word j)
  | 0, word => by
      unfold scanDown
      split_ifs with h
      · refine ⟨?_, fun h' => by cases h'⟩
        intro i hi
        obtain rfl := Option.some.inj hi
        simpa using scanDown_hit (w := 0) h
      · push Not at h
        refine ⟨fun i hi => (by cases hi), ?_⟩
        rintro - j (⟨hj, -⟩ | ⟨-, hb⟩)
        · omega
        · simp [h] at hb
  | w + 1, word => by
      unfold scanDown
      split_ifs with h
      · refine ⟨?_, fun h' => by cases h'⟩
        intro i hi
        obtain rfl := Option.some.inj hi
        rw [shiftLeft_six]
        exact scanDown_hit h
      · push Not at h
        -- An all-zero word leaves exactly the bits of the words below it.
        have hiff : ∀ j, Down words (w + 1) word j ↔ Down words w (words.getD w 0) j := by
          intro j
          constructor
          · rintro (⟨hj, hb⟩ | ⟨-, hb⟩)
            · rcases Nat.lt_or_eq_of_le (Nat.le_of_lt_succ hj) with hlt | heq
              · exact Or.inl ⟨hlt, hb⟩
              · rw [bit_eq, heq] at hb
                exact Or.inr ⟨heq, hb⟩
            · simp [h] at hb
          · rintro (⟨hj, hb⟩ | ⟨hj, hb⟩)
            · exact Or.inl ⟨by omega, hb⟩
            · refine Or.inl ⟨by omega, ?_⟩
              rw [bit_eq, hj]
              exact hb
        simp only [hiff]
        exact scanDown_spec words w (words.getD w 0)

/-- The bits the upward scan has in front of it. -/
def Up (words : List (BitVec 64)) (w : ℕ) (word : BitVec 64) (i : ℕ) : Prop :=
  w < i / 64 ∧ bit words i = true ∨ i / 64 = w ∧ word.getLsbD (i % 64) = true

theorem scanUp_hit {words : List (BitVec 64)} {w : ℕ} {word : BitVec 64} (h : word ≠ 0) :
    Up words w word (w * 64 + word.ctz.toNat) ∧
      ∀ j, Up words w word j → w * 64 + word.ctz.toNat ≤ j := by
  have hbot := getLsbD_bottom h
  have hlt := getLsbD_lt hbot
  refine ⟨Or.inr ⟨by omega, ?_⟩, ?_⟩
  · have : (w * 64 + word.ctz.toNat) % 64 = word.ctz.toNat := by omega
    rw [this]
    exact hbot
  · rintro j (⟨hj, -⟩ | ⟨hj, hb⟩)
    · omega
    · have := bottom_le hb
      omega

theorem bit_of_ge {words : List (BitVec 64)} {i : ℕ} (h : words.length ≤ i / 64) :
    bit words i = false := by
  rw [bit_eq, List.getD_eq_getElem?_getD, List.getElem?_eq_none h]
  simp

/-- The upward scan finds the lowest bit in front of it. -/
theorem scanUp_spec (words : List (BitVec 64)) : ∀ (fuel w : ℕ) (word : BitVec 64),
    words.length ≤ w + 1 + fuel → w < words.length →
    (∀ i, scanUp words fuel w word = some i →
      Up words w word i ∧ ∀ j, Up words w word j → i ≤ j) ∧
    (scanUp words fuel w word = none → ∀ j, ¬ Up words w word j)
  | 0, w, word, hfuel, hw => by
      unfold scanUp
      split_ifs with h
      · refine ⟨?_, fun h' => by cases h'⟩
        intro i hi
        obtain rfl := Option.some.inj hi
        rw [shiftLeft_six]
        exact scanUp_hit h
      · push Not at h
        refine ⟨fun i hi => (by cases hi), ?_⟩
        rintro - j (⟨hj, hb⟩ | ⟨-, hb⟩)
        · rw [bit_of_ge (by omega)] at hb
          cases hb
        · simp [h] at hb
  | fuel + 1, w, word, hfuel, hw => by
      unfold scanUp
      split_ifs with h hend
      · refine ⟨?_, fun h' => by cases h'⟩
        intro i hi
        obtain rfl := Option.some.inj hi
        rw [shiftLeft_six]
        exact scanUp_hit h
      · push Not at h
        refine ⟨fun i hi => (by cases hi), ?_⟩
        rintro - j (⟨hj, hb⟩ | ⟨-, hb⟩)
        · rw [bit_of_ge (by omega)] at hb
          cases hb
        · simp [h] at hb
      · push Not at h
        have hiff : ∀ j, Up words w word j ↔ Up words (w + 1) (words.getD (w + 1) 0) j := by
          intro j
          constructor
          · rintro (⟨hj, hb⟩ | ⟨-, hb⟩)
            · rcases Nat.lt_or_eq_of_le (Nat.succ_le_of_lt hj) with hlt | heq
              · exact Or.inl ⟨hlt, hb⟩
              · rw [bit_eq, ← heq] at hb
                exact Or.inr ⟨heq.symm, hb⟩
            · simp [h] at hb
          · rintro (⟨hj, hb⟩ | ⟨hj, hb⟩)
            · exact Or.inl ⟨by omega, hb⟩
            · refine Or.inl ⟨by omega, ?_⟩
              rw [bit_eq, hj]
              exact hb
        simp only [hiff]
        exact scanUp_spec words fuel (w + 1) (words.getD (w + 1) 0) (by omega) (by omega)

/-! ### Starting from a bit -/

theorem getLsbD_below_mask (b j : ℕ) (hb : b < 64) :
    (if b = 0 then 0 else BitVec.allOnes 64 >>> (64 - b) : BitVec 64).getLsbD j =
      decide (j < b) := by
  split_ifs with h
  · simp [h]
  · rw [BitVec.getLsbD_ushiftRight, BitVec.getLsbD_allOnes]
    exact decide_eq_decide.mpr (by omega)

theorem getLsbD_above_mask (b j : ℕ) (hb : b < 64) :
    (if b = 63 then 0 else BitVec.allOnes 64 <<< (b + 1) : BitVec 64).getLsbD j =
      (decide (b < j) && decide (j < 64)) := by
  split_ifs with h
  · by_cases hj : j < 64
    · have : ¬ b < j := by omega
      simp [this]
    · simp [hj]
  · rw [BitVec.getLsbD_shiftLeft, BitVec.getLsbD_allOnes]
    by_cases hj : j < 64
    · by_cases hbj : j < b + 1
      · have : ¬ b < j := by omega
        simp [hbj, this]
      · have h1 : b < j := by omega
        have h2 : j - (b + 1) < 64 := by omega
        simp [hj, hbj, h1, h2]
    · simp [hj]

theorem down_iff (words : List (BitVec 64)) (i j : ℕ) :
    Down words (i / 64) (words.getD (i / 64) 0 &&&
      (if i % 64 = 0 then 0 else BitVec.allOnes 64 >>> (64 - i % 64))) j ↔
      j < i ∧ bit words j = true := by
  unfold Down
  rw [BitVec.getLsbD_and, getLsbD_below_mask _ _ (by omega), Bool.and_eq_true, decide_eq_true_eq]
  constructor
  · rintro (⟨h1, h2⟩ | ⟨h1, h2, h3⟩)
    · exact ⟨by omega, h2⟩
    · exact ⟨by omega, by rw [bit_eq, h1]; exact h2⟩
  · rintro ⟨h1, h2⟩
    by_cases h : j / 64 < i / 64
    · exact Or.inl ⟨h, h2⟩
    · have h3 : j / 64 = i / 64 := by omega
      refine Or.inr ⟨h3, ?_, by omega⟩
      rw [bit_eq, h3] at h2
      exact h2

theorem up_iff (words : List (BitVec 64)) (i j : ℕ) :
    Up words (i / 64) (words.getD (i / 64) 0 &&&
      (if i % 64 = 63 then 0 else BitVec.allOnes 64 <<< (i % 64 + 1))) j ↔
      i < j ∧ bit words j = true := by
  unfold Up
  rw [BitVec.getLsbD_and, getLsbD_above_mask _ _ (by omega), Bool.and_eq_true, Bool.and_eq_true,
    decide_eq_true_eq, decide_eq_true_eq]
  constructor
  · rintro (⟨h1, h2⟩ | ⟨h1, h2, h3, h4⟩)
    · exact ⟨by omega, h2⟩
    · exact ⟨by omega, by rw [bit_eq, h1]; exact h2⟩
  · rintro ⟨h1, h2⟩
    by_cases h : i / 64 < j / 64
    · exact Or.inl ⟨h, h2⟩
    · have h3 : j / 64 = i / 64 := by omega
      refine Or.inr ⟨h3, ?_, by omega, by omega⟩
      rw [bit_eq, h3] at h2
      exact h2

/-- **`scanBelow` finds the nearest set bit below.** -/
theorem scanBelow_some {words : List (BitVec 64)} {i j : ℕ} (h : scanBelow words i = some j) :
    j < i ∧ bit words j = true ∧ ∀ k, k < i → bit words k = true → k ≤ j := by
  rw [scanBelow, shiftRight_six, and_sixtyThree] at h
  obtain ⟨h1, h2⟩ := (scanDown_spec _ _ _).1 j h
  obtain ⟨h3, h4⟩ := (down_iff words i j).mp h1
  exact ⟨h3, h4, fun k hk hb => h2 k ((down_iff words i k).mpr ⟨hk, hb⟩)⟩

theorem scanBelow_none {words : List (BitVec 64)} {i : ℕ} (h : scanBelow words i = none) (k : ℕ)
    (hk : k < i) : bit words k = false := by
  rw [scanBelow, shiftRight_six, and_sixtyThree] at h
  have := (scanDown_spec _ _ _).2 h k
  rw [down_iff] at this
  simpa [hk] using this

/-- **`scanAbove` finds the nearest set bit above.** -/
theorem scanAbove_some {words : List (BitVec 64)} {i j : ℕ} (hi : i / 64 < words.length)
    (h : scanAbove words i = some j) :
    i < j ∧ bit words j = true ∧ ∀ k, i < k → bit words k = true → j ≤ k := by
  rw [scanAbove, shiftRight_six, and_sixtyThree] at h
  obtain ⟨h1, h2⟩ := (scanUp_spec _ _ _ _ (by omega) hi).1 j h
  obtain ⟨h3, h4⟩ := (up_iff words i j).mp h1
  exact ⟨h3, h4, fun k hk hb => h2 k ((up_iff words i k).mpr ⟨hk, hb⟩)⟩

theorem scanAbove_none {words : List (BitVec 64)} {i : ℕ} (hi : i / 64 < words.length)
    (h : scanAbove words i = none) (k : ℕ) (hk : i < k) : bit words k = false := by
  rw [scanAbove, shiftRight_six, and_sixtyThree] at h
  have := (scanUp_spec _ _ _ _ (by omega) hi).2 h k
  rw [up_iff] at this
  simpa [hk] using this

end Bitmap
