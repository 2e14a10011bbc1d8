import LimitOrderBook.Bitmap
import LimitOrderBook.Store

/-! # The flat banded ladder

One side of the book as in `include/lob/order_book.hpp` (and `engines/book_v5.hpp`): an array of
levels over the band `[lo, hi)`, an occupancy bitmap with one bit per tick, and the cached best
price, `kNoPrice` when the side is empty.

`FlatLadder.WF` holds only while the sentinel `kNoPrice` is not a price of the band, as when the band
starts at `1` or above; under it the ladder is lawful, `scanWorse` is the next occupied price
(`scan_spec`) and `best` the best one. -/

namespace Lob

open Bitmap

structure FlatLadder (A : Type) where
  levels : List (Level A)
  words : List (BitVec 64)
  lo : Int
  hi : Int
  best : Int := kNoPrice
deriving DecidableEq, Repr

namespace FlatLadder

variable {A : Type}

def new (lo hi : Int) : FlatLadder A :=
  { levels := (List.range (hi - lo).toNat).map (fun i : ℕ => { price := lo + i })
    words := List.replicate (((hi - lo).toNat + 63) / 64) 0
    lo := lo
    hi := hi }

def inBand (l : FlatLadder A) (px : Int) : Bool := decide (l.lo ≤ px) && decide (px < l.hi)

/-- `static_cast<std::size_t>(px - lo_)`. -/
def idx (l : FlatLadder A) (px : Int) : ℕ := (px - l.lo).toNat

/-- `at(px)`, as a value. -/
def level (l : FlatLadder A) (px : Int) : Level A := l.levels.getD (l.idx px) {}

/-- Assignment through the reference `at(px)`. -/
def setLevel (l : FlatLadder A) (px : Int) (v : Level A) : FlatLadder A :=
  { l with levels := l.levels.set (l.idx px) v }

/-- First occupied price strictly worse than `px`, or `kNoPrice`. -/
def scanWorse (s : Side) (l : FlatLadder A) (px : Int) : Int :=
  match (match s with
    | .bid => scanBelow l.words (l.idx px)
    | .ask => scanAbove l.words (l.idx px)) with
  | some i => l.lo + i
  | none => kNoPrice

def onNonempty (s : Side) (l : FlatLadder A) (px : Int) : FlatLadder A :=
  { l with
    words := setBit l.words (l.idx px)
    best := if l.best = kNoPrice ∨ better s px l.best then px else l.best }

def onEmpty (s : Side) (l : FlatLadder A) (px : Int) : FlatLadder A :=
  let l := { l with words := clearBit l.words (l.idx px) }
  { l with best := if l.best = px then l.scanWorse s px else l.best }

def bitSet (l : FlatLadder A) (px : Int) : Bool := bit l.words (l.idx px)

/-- The test every caller makes on a price of the ladder. -/
def price? (p : Int) : Option Int := if p = kNoPrice then none else some p

instance : Ladder (FlatLadder A) A where
  inBand := inBand
  best? _ l := price? l.best
  worse? s l px := price? (l.scanWorse s px)
  level := level
  setLevel := setLevel
  link s l px f :=
    let v := l.level px
    let l' := l.setLevel px (f v)
    -- `if (was_empty) on_nonempty(px)`
    if v.head.isNone then l'.onNonempty s px else l'
  emptied s l _ px := l.onEmpty s px

/-! ### The invariant -/

/-- The level at `p` is on the ladder. -/
def Occ (l : FlatLadder A) (p : Int) : Prop := l.inBand p = true ∧ l.bitSet p = true

/-- Array and bitmap have the sizes of the band. -/
structure Shape (l : FlatLadder A) : Prop where
  apart : l.inBand kNoPrice = false
  levels_len : l.levels.length = (l.hi - l.lo).toNat
  words_len : l.words.length = (l.levels.length + 63) / 64
  bits : ∀ i, bit l.words i = true → i < l.levels.length

structure WF (s : Side) (l : FlatLadder A) : Prop extends Shape l where
  price : ∀ p, l.inBand p = true → (l.level p).price = p
  blank : ∀ p, l.inBand p = true → ¬ l.Occ p → (l.level p).Blank
  best_none : l.best = kNoPrice → ∀ p, ¬ l.Occ p
  best_some : l.best ≠ kNoPrice → l.Occ l.best ∧ ∀ q, l.Occ q → ¬ better s q l.best

theorem price?_eq_none {p : Int} : price? p = none ↔ p = kNoPrice := by
  unfold price?
  split_ifs with h <;> simp [h]

theorem price?_eq_some {p q : Int} : price? p = some q ↔ p ≠ kNoPrice ∧ p = q := by
  unfold price?
  split_ifs with h <;> simp [h]

theorem inBand_iff {l : FlatLadder A} {p : Int} : l.inBand p = true ↔ l.lo ≤ p ∧ p < l.hi := by
  simp [inBand]

/-- The prices of a ladder, ascending. -/
def ticks (l : FlatLadder A) : List Int :=
  (List.range (l.hi - l.lo).toNat).map fun i : ℕ => l.lo + i

theorem mem_ticks {l : FlatLadder A} {px : Int} : px ∈ l.ticks ↔ l.inBand px = true := by
  rw [inBand_iff]
  simp only [ticks, List.mem_map, List.mem_range]
  constructor
  · rintro ⟨i, hi, rfl⟩
    omega
  · rintro ⟨h1, h2⟩
    exact ⟨(px - l.lo).toNat, by omega, by omega⟩

theorem ticks_pairwise {l : FlatLadder A} : l.ticks.Pairwise (· < ·) := by
  rw [ticks, List.pairwise_map]
  exact List.pairwise_lt_range.imp (by intro i j h; omega)

/-- Two ladders over the same prices. -/
theorem ticks_congr {A' : Type} {l : FlatLadder A} {l' : FlatLadder A'}
    (h : ∀ px, l.inBand px = l'.inBand px) : l.ticks = l'.ticks := by
  have hiff : ∀ px, (l.lo ≤ px ∧ px < l.hi) ↔ (l'.lo ≤ px ∧ px < l'.hi) := by
    intro px
    rw [← inBand_iff, ← inBand_iff, h]
  have hlo := hiff l.lo
  have hlo' := hiff l'.lo
  by_cases hne : l.lo < l.hi
  · have hhi := hiff (l.hi - 1)
    have hhi' := hiff (l'.hi - 1)
    have hloeq : l.lo = l'.lo := by omega
    have hhieq : l.hi = l'.hi := by omega
    rw [ticks, ticks, hloeq, hhieq]
  · have h0 : (l.hi - l.lo).toNat = 0 := by omega
    have h0' : (l'.hi - l'.lo).toNat = 0 := by omega
    rw [ticks, ticks, h0, h0']
    rfl

theorem idx_inj {l : FlatLadder A} {p q : Int} (hp : l.inBand p = true) (hq : l.inBand q = true) :
    l.idx p = l.idx q ↔ p = q := by
  rw [inBand_iff] at hp hq
  unfold idx
  omega

theorem level_setLevel {l : FlatLadder A} {p q : Int} (hlt : l.idx p < l.levels.length)
    (hp : l.inBand p = true) (hq : l.inBand q = true) (v : Level A) :
    (l.setLevel p v).level q = if q = p then v else l.level q := by
  have hinj := idx_inj hq hp
  simp only [level, setLevel, idx, List.getD_eq_getElem?_getD, List.getElem?_set]
  unfold idx at hlt hinj
  by_cases he : q = p
  · subst he
    simp [hlt]
  · have : ¬ (p - l.lo).toNat = (q - l.lo).toNat := fun e => he (hinj.mp e.symm)
    simp [he, this]

/-- The ladder has the band from `lo` to `hi`, and its array and bitmap the sizes for it. -/
structure Frame (l : FlatLadder A) (lo hi : Int) : Prop where
  lo_eq : l.lo = lo
  hi_eq : l.hi = hi
  levels_len : l.levels.length = (hi - lo).toNat
  words_len : l.words.length = (l.levels.length + 63) / 64

namespace Frame

variable {l : FlatLadder A} {lo hi px : Int} (h : l.Frame lo hi)

include h

theorem idx_lt (hpx : l.inBand px = true) : l.idx px < l.levels.length := by
  obtain ⟨hlo, hhi⟩ := inBand_iff.mp hpx
  have hl := h.lo_eq
  have hh := h.hi_eq
  rw [h.levels_len, idx]
  omega

theorem word_lt (hpx : l.inBand px = true) : l.idx px / 64 < l.words.length := by
  have hlt := h.idx_lt hpx
  rw [h.words_len]
  omega

theorem setLevel (v : Level A) : (l.setLevel px v).Frame lo hi where
  lo_eq := h.lo_eq
  hi_eq := h.hi_eq
  levels_len := by simpa [FlatLadder.setLevel] using h.levels_len
  words_len := by simpa [FlatLadder.setLevel] using h.words_len

theorem onNonempty (s : Side) : (l.onNonempty s px).Frame lo hi where
  lo_eq := h.lo_eq
  hi_eq := h.hi_eq
  levels_len := h.levels_len
  words_len := by simpa [FlatLadder.onNonempty] using h.words_len

theorem onEmpty (s : Side) : (l.onEmpty s px).Frame lo hi where
  lo_eq := h.lo_eq
  hi_eq := h.hi_eq
  levels_len := h.levels_len
  words_len := by simpa [FlatLadder.onEmpty] using h.words_len

end Frame

theorem new_frame (lo hi : Int) : (new lo hi : FlatLadder A).Frame lo hi where
  lo_eq := rfl
  hi_eq := rfl
  levels_len := by simp [new]
  words_len := by simp [new]

theorem new_level {lo hi p : Int} (hp : (new lo hi : FlatLadder A).inBand p = true) :
    (new lo hi : FlatLadder A).level p = { price := p } := by
  obtain ⟨h1, h2⟩ : lo ≤ p ∧ p < hi := inBand_iff.mp hp
  have hlt : (p - lo).toNat < (hi - lo).toNat := by omega
  simp [level, new, idx, List.getD_eq_getElem?_getD, hlt]
  omega

section nearest

variable {l : FlatLadder A} {s : Side} {p : Int}

theorem add_idx {q : Int} (hq : l.inBand q = true) : l.lo + (l.idx q : Int) = q := by
  have hqb := inBand_iff.mp hq
  unfold idx
  omega

/-- Where no bit of a worse price is set, no worse price is occupied. -/
theorem not_better_of_clear
    (hclear : ∀ j : ℕ, better s p (l.lo + j) → bit l.words j = false) :
    ∀ q, l.Occ q → ¬ better s p q := by
  rintro q ⟨hq, hb⟩ hlt
  have hqi := add_idx hq
  have hzero := hclear (l.idx q) (by rwa [hqi])
  rw [bitSet, hzero] at hb
  cases hb

/-- The nearest of the set bits is the bit of the nearest of the occupied prices. -/
theorem nearest_of_bits {best : Int} (hnear : ∀ j : ℕ, bit l.words j = true →
      better s p (l.lo + j) → ¬ better s (l.lo + j) best) :
    ∀ r, l.Occ r → better s p r → ¬ better s r best := by
  rintro r ⟨hr, hb⟩ hpr
  have hri := add_idx hr
  have hle := hnear (l.idx r) hb (by rwa [hri])
  rwa [hri] at hle

end nearest

namespace Frame

variable {l : FlatLadder A} {lo hi : Int} (h : l.Frame lo hi)
  (hbits : ∀ i, bit l.words i = true → i < l.levels.length)

include h hbits

/-- A set bit is the bit of an occupied price. -/
theorem occ_of_bit {i : ℕ} (hi : bit l.words i = true) : l.Occ (l.lo + i) := by
  have hlt := hbits i hi
  have hl := h.lo_eq
  have hh := h.hi_eq
  have hidx : l.idx (l.lo + i) = i := by
    unfold idx
    omega
  rw [h.levels_len] at hlt
  refine ⟨inBand_iff.mpr ⟨by omega, by omega⟩, ?_⟩
  rw [bitSet, hidx]
  exact hi

/-- **The two scans, in terms of occupied prices.** -/
theorem scan_cases (s : Side) {p : Int} (hp : l.inBand p = true) :
    l.scanWorse s p = kNoPrice ∧ (∀ q, l.Occ q → ¬ better s p q) ∨
      l.Occ (l.scanWorse s p) ∧ better s p (l.scanWorse s p) ∧
        ∀ r, l.Occ r → better s p r → ¬ better s r (l.scanWorse s p) := by
  have hidx : l.lo + (l.idx p : Int) = p := add_idx hp
  cases s with
  | bid =>
      unfold scanWorse
      cases hs : scanBelow l.words (l.idx p) with
      | none =>
          refine Or.inl ⟨rfl, not_better_of_clear fun j hj => ?_⟩
          rw [better] at hj
          exact scanBelow_none hs j (by omega)
      | some i =>
          obtain ⟨h1, h2, h3⟩ := scanBelow_some hs
          refine Or.inr ⟨h.occ_of_bit hbits h2, ?_, ?_⟩
          · simp only [better]
            omega
          · refine nearest_of_bits fun j hj hpj => ?_
            simp only [better] at hpj ⊢
            have hle := h3 j (by omega) hj
            omega
  | ask =>
      unfold scanWorse
      cases hs : scanAbove l.words (l.idx p) with
      | none =>
          refine Or.inl ⟨rfl, not_better_of_clear fun j hj => ?_⟩
          rw [better] at hj
          exact scanAbove_none (h.word_lt hp) hs j (by omega)
      | some i =>
          obtain ⟨h1, h2, h3⟩ := scanAbove_some (h.word_lt hp) hs
          refine Or.inr ⟨h.occ_of_bit hbits h2, ?_, ?_⟩
          · simp only [better]
            omega
          · refine nearest_of_bits fun j hj hpj => ?_
            simp only [better] at hpj ⊢
            have hle := h3 j (by omega) hj
            omega

end Frame

namespace Shape

variable {l : FlatLadder A} (h : l.Shape)

include h

theorem frame : l.Frame l.lo l.hi := ⟨rfl, rfl, h.levels_len, h.words_len⟩

theorem idx_lt {p : Int} (hp : l.inBand p = true) : l.idx p < l.levels.length := h.frame.idx_lt hp

theorem word_lt {p : Int} (hp : l.inBand p = true) : l.idx p / 64 < l.words.length :=
  h.frame.word_lt hp

theorem ne_kNoPrice {p : Int} (hp : l.inBand p = true) : p ≠ kNoPrice := by
  rintro rfl
  rw [h.apart] at hp
  cases hp

/-- The scan from a price of the band leads to `kNoPrice`, or to the next occupied price. -/
theorem scan_spec (s : Side) {p : Int} (hp : l.inBand p = true) :
    (l.scanWorse s p = kNoPrice → ∀ q, l.Occ q → ¬ better s p q) ∧
    (l.scanWorse s p ≠ kNoPrice → l.Occ (l.scanWorse s p) ∧ better s p (l.scanWorse s p) ∧
      ∀ r, l.Occ r → better s p r → ¬ better s r (l.scanWorse s p)) := by
  rcases h.frame.scan_cases h.bits s hp with ⟨h0, hnone⟩ | hsome
  · exact ⟨fun _ => hnone, fun hne => absurd h0 hne⟩
  · exact ⟨fun h0 => absurd h0 (h.ne_kNoPrice hsome.1.1), fun _ => hsome⟩

theorem occ_onNonempty {s : Side} {p : Int} (hp : l.inBand p = true) (q : Int) :
    (l.onNonempty s p).Occ q ↔ q = p ∨ l.Occ q := by
  have hlt := h.word_lt hp
  have hpb := inBand_iff.mp hp
  unfold Occ bitSet onNonempty
  simp only [idx, inBand] at *
  rw [bit_setBit hlt]
  by_cases hq : q = p
  · subst hq; simpa using hpb
  · constructor
    · rintro ⟨h1, h2⟩
      refine Or.inr ⟨h1, ?_⟩
      have : ¬ (q - l.lo).toNat = (p - l.lo).toNat := by
        simp only [Bool.and_eq_true, decide_eq_true_eq] at h1
        omega
      simpa [this] using h2
    · rintro (h | ⟨h1, h2⟩)
      · exact absurd h hq
      · exact ⟨h1, by simp [h2]⟩

theorem occ_onEmpty {s : Side} {p : Int} (hp : l.inBand p = true) (q : Int) :
    (l.onEmpty s p).Occ q ↔ l.Occ q ∧ q ≠ p := by
  have hlt := h.word_lt hp
  have hinj := fun hq : l.inBand q = true => idx_inj hq hp
  unfold Occ bitSet onEmpty
  simp only [idx, inBand] at *
  rw [bit_clearBit hlt]
  by_cases hq : q = p
  · subst hq; simp
  · constructor
    · rintro ⟨h1, h2⟩
      refine ⟨⟨h1, ?_⟩, hq⟩
      simp only [Bool.and_eq_true] at h2
      exact h2.2
    · rintro ⟨⟨h1, h2⟩, -⟩
      have : ¬ (q - l.lo).toNat = (p - l.lo).toNat := fun e => hq ((hinj h1).mp e)
      exact ⟨h1, by simp [this, h2]⟩

theorem level_set {p q : Int} (hp : l.inBand p = true) (hq : l.inBand q = true) (v : Level A) :
    (l.setLevel p v).level q = if q = p then v else l.level q :=
  level_setLevel (h.idx_lt hp) hp hq v

/-- Rewriting a level leaves the shape as it is. -/
theorem setLevel (p : Int) (v : Level A) : (l.setLevel p v).Shape where
  apart := h.apart
  levels_len := by simpa [FlatLadder.setLevel] using h.levels_len
  words_len := by simpa [FlatLadder.setLevel] using h.words_len
  bits := by simpa [FlatLadder.setLevel] using h.bits

theorem onNonempty (s : Side) {p : Int} (hp : l.inBand p = true) : (l.onNonempty s p).Shape where
  apart := h.apart
  levels_len := h.levels_len
  words_len := by simpa [FlatLadder.onNonempty] using h.words_len
  bits i hi := by
    have hi' : bit (setBit l.words (l.idx p)) i = true := hi
    rw [bit_setBit (h.word_lt hp), Bool.or_eq_true, decide_eq_true_eq] at hi'
    rcases hi' with rfl | hi'
    · exact h.idx_lt hp
    · exact h.bits i hi'

theorem clearBit {p : Int} (hp : l.inBand p = true) :
    { l with words := Bitmap.clearBit l.words (l.idx p) }.Shape where
  apart := h.apart
  levels_len := h.levels_len
  words_len := by simpa using h.words_len
  bits i hi := by
    have hi' : bit (Bitmap.clearBit l.words (l.idx p)) i = true := hi
    rw [bit_clearBit (h.word_lt hp), Bool.and_eq_true] at hi'
    exact h.bits i hi'.2

end Shape

/-! ### The operations keep the invariant -/

theorem new_not_occ {lo hi : Int} (p : Int) : ¬ (new lo hi : FlatLadder A).Occ p := by
  rintro ⟨-, hb⟩
  simp [bitSet, new] at hb

theorem new_wf (s : Side) {lo hi : Int}
    (h : (new lo hi : FlatLadder A).inBand kNoPrice = false) : (new lo hi : FlatLadder A).WF s := by
  have hocc : ∀ p, ¬ (new lo hi : FlatLadder A).Occ p := new_not_occ
  exact
    { apart := h
      levels_len := (new_frame lo hi).levels_len
      words_len := (new_frame lo hi).words_len
      bits := fun i hb => by simp [new] at hb
      price := fun p hp => by rw [new_level hp]
      blank := fun p hp _ => by rw [new_level hp]; exact ⟨rfl, rfl, rfl, rfl⟩
      best_none := fun _ => hocc
      best_some := fun hb => absurd rfl hb }

theorem setLevel_wf {s : Side} {l : FlatLadder A} (h : l.WF s) {p : Int} {v : Level A}
    (hp : l.Occ p) (hv : v.price = p) : (l.setLevel p v).WF s where
  toShape := h.toShape.setLevel p v
  price q hq := by
    rw [h.level_set hp.1 hq]
    split_ifs with he
    · rw [hv, he]
    · exact h.price q hq
  blank q hq hnot := by
    rw [h.level_set hp.1 hq]
    split_ifs with he
    · exact absurd (he ▸ hp) hnot
    · exact h.blank q hq hnot
  best_none := h.best_none
  best_some := h.best_some

/-- The update of `rest` on a level that was empty: it is rewritten, then announced. -/
theorem setLevel_onNonempty_wf {s : Side} {l : FlatLadder A} (h : l.WF s) {p : Int} {v : Level A}
    (hp : l.inBand p = true) (hv : v.price = p) : ((l.setLevel p v).onNonempty s p).WF s := by
  have hsh := h.toShape.setLevel p v
  have hocc : ∀ q, ((l.setLevel p v).onNonempty s p).Occ q ↔ q = p ∨ l.Occ q :=
    hsh.occ_onNonempty hp
  have hlevel : ∀ q, l.inBand q = true →
      ((l.setLevel p v).onNonempty s p).level q = if q = p then v else l.level q :=
    fun q hq => h.level_set hp hq v
  have hbest : ((l.setLevel p v).onNonempty s p).best =
      if l.best = kNoPrice ∨ better s p l.best then p else l.best := rfl
  refine { toShape := hsh.onNonempty s hp, price := ?_, blank := ?_, best_none := ?_,
           best_some := ?_ }
  · intro q hq
    rw [hlevel q hq]
    split_ifs with he
    · rw [hv, he]
    · exact h.price q hq
  · intro q hq hnot
    rw [hocc, not_or] at hnot
    rw [hlevel q hq, if_neg hnot.1]
    exact h.blank q hq hnot.2
  · intro hb
    rw [hbest] at hb
    split_ifs at hb with hc
    · exact absurd hb (h.ne_kNoPrice hp)
    · exact absurd (Or.inl hb) hc
  · intro _
    rw [hbest]
    split_ifs with hc
    · refine ⟨(hocc p).mpr (Or.inl rfl), fun q hq => ?_⟩
      rcases (hocc q).mp hq with rfl | hq'
      · exact irrefl _
      · have hne : l.best ≠ kNoPrice := fun e => h.best_none e q hq'
        have hpb := hc.resolve_left hne
        exact fun hqp => (h.best_some hne).2 q hq' (IsTrans.trans _ _ _ hqp hpb)
    · rw [not_or] at hc
      obtain ⟨hb1, hb2⟩ := h.best_some hc.1
      refine ⟨(hocc _).mpr (Or.inr hb1), fun q hq => ?_⟩
      rcases (hocc q).mp hq with rfl | hq'
      · exact hc.2
      · exact hb2 q hq'

theorem onEmpty_wf {s : Side} {l : FlatLadder A} (h : l.WF s) {p : Int} (hp : l.Occ p)
    (hb : (l.level p).Blank) : (l.onEmpty s p).WF s := by
  have hocc : ∀ q, (l.onEmpty s p).Occ q ↔ l.Occ q ∧ q ≠ p := h.occ_onEmpty hp.1
  -- the rescan reads the bitmap with the bit of `p` already cleared
  have hsh := h.toShape.clearBit hp.1
  obtain ⟨hnone, hsome⟩ := hsh.scan_spec s hp.1
  have hbest : (l.onEmpty s p).best =
      if l.best = p then { l with words := clearBit l.words (l.idx p) }.scanWorse s p
      else l.best := rfl
  have hne : l.best ≠ kNoPrice := fun e => h.best_none e p hp
  obtain ⟨hb1, hb2⟩ := h.best_some hne
  refine { toShape := ⟨hsh.apart, hsh.levels_len, hsh.words_len, hsh.bits⟩, price := h.price,
           blank := ?_, best_none := ?_, best_some := ?_ }
  · intro q hq hnot
    by_cases hqp : q = p
    · exact hqp ▸ hb
    · exact h.blank q hq fun ho => hnot ((hocc q).mpr ⟨ho, hqp⟩)
  · intro hbe q hq
    rw [hbest] at hbe
    split_ifs at hbe with he
    · have hqo := (hocc q).mp hq
      have hnb := hnone hbe q hq
      rcases Std.Trichotomous.rel_or_eq_or_rel_swap (r := better s) (a := p) (b := q) with h' | h' | h'
      · exact hnb h'
      · exact hqo.2 h'.symm
      · exact hb2 q hqo.1 (he ▸ h')
    · exact hne hbe
  · intro hbe
    rw [hbest] at hbe ⊢
    split_ifs at hbe ⊢ with he
    · obtain ⟨h1, h2, h3⟩ := hsome hbe
      refine ⟨h1, fun q hq => h3 q hq ?_⟩
      have hqo := (hocc q).mp hq
      rcases Std.Trichotomous.rel_or_eq_or_rel_swap (r := better s) (a := p) (b := q) with h' | h' | h'
      · exact h'
      · exact absurd h'.symm hqo.2
      · exact absurd (he ▸ h') (hb2 q hqo.1)
    · refine ⟨(hocc _).mpr ⟨hb1, he⟩, fun q hq => hb2 q ((hocc q).mp hq).1⟩

theorem link_eq (s : Side) (l : FlatLadder A) (px : Int) (f : Level A → Level A) :
    Ladder.link s l px f =
      if (l.level px).head.isNone then (l.setLevel px (f (l.level px))).onNonempty s px
      else l.setLevel px (f (l.level px)) := rfl

instance : LawfulLadder (FlatLadder A) A where
  WF := WF
  occ := Occ
  inBand_of_occ _ ho := ho.1
  best?_none h hb := h.best_none (price?_eq_none.mp hb)
  best?_some h hb := by
    obtain ⟨hne, rfl⟩ := price?_eq_some.mp hb
    exact h.best_some hne
  worse?_none {s _ _} h ho hw := (h.scan_spec s ho.1).1 (price?_eq_none.mp hw)
  worse?_some {s _ _ _} h ho hw := by
    obtain ⟨hne, rfl⟩ := price?_eq_some.mp hw
    exact (h.scan_spec s ho.1).2 hne
  blank h hp hn := h.blank _ hp hn
  setLevel_wf h ho hv := setLevel_wf h ho hv
  setLevel_occ _ _ _ := Iff.rfl
  setLevel_inBand _ _ _ := rfl
  level_setLevel {_ _ _ v} h ho q hq := h.level_set ho.1 hq v
  link_wf {s l p f} h hp hocc hf := by
    have hprice : (f (l.level p)).price = p := (hf _).trans (h.price p hp)
    rw [link_eq]
    split_ifs with hn
    · exact setLevel_onNonempty_wf h hp hprice
    · have hsome : (l.level p).head.isSome = true :=
        Option.isNone_eq_false_iff.mp (Bool.eq_false_iff.mpr hn)
      exact setLevel_wf h (hocc.mp hsome) hprice
  link_occ {s l p f} h hp hocc q := by
    rw [link_eq]
    split_ifs with hn
    · exact (h.toShape.setLevel p _).occ_onNonempty hp q
    · have hsome : (l.level p).head.isSome = true :=
        Option.isNone_eq_false_iff.mp (Bool.eq_false_iff.mpr hn)
      constructor
      · exact Or.inr
      · rintro (rfl | ho)
        · exact hocc.mp hsome
        · exact ho
  link_inBand _ _ := by
    rw [link_eq]
    split_ifs <;> rfl
  level_link {s l p f} h hp q hq := by
    have hprice : { l.level p with price := p } = l.level p := by
      have hpx := h.price p hp
      rcases hl : l.level p with ⟨hd, tl, tot, n, px⟩
      rw [hl] at hpx
      exact congrArg (Level.mk hd tl tot n) hpx.symm
    show (Ladder.link s l p f).level q = if q = p then f { l.level p with price := p } else l.level q
    rw [hprice, ← h.level_set hp hq, link_eq]
    split_ifs <;> rfl
  emptied_wf h ho hb := onEmpty_wf h ho hb
  emptied_occ h ho q := h.occ_onEmpty ho.1 q
  emptied_inBand _ _ := rfl
  level_emptied _ _ _ := rfl
  price_of_occ h ho := h.price _ ho.1

end FlatLadder

end Lob
