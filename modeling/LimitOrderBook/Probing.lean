import Mathlib.Data.List.Basic
import Mathlib.Tactic.Common

/-! # Linear probing with backward-shift deletion

A table of `n` cells is a function `T : ℕ → γ` on positions below `n`; `key c` is the key of a
cell and the distinguished key `e` marks an empty one.  Positions are arranged in a circle:
`off n a b` is the number of steps from `a` forward to `b`, and `next n i` is one step.

The invariant of the table is `Reachable` (every cell from the home of a stored key up to its
position is occupied) together with `Distinct` (no key is stored twice).  `Stops` describes the
cell at which a probe for a key ends, and decides membership (`Stops.key_eq`, `Stops.absent`).

Deletion moves a *hole* forward from the deleted cell to the end of its run.  `HoleInv` is the
loop invariant: every key is still reachable if the hole counts as occupied, and a key whose
path goes through the hole has not been examined yet.  `HoleInv.move` and `HoleInv.skip` are
the two loop steps and `HoleInv.close` the exit. -/

namespace Probing

/-- Steps from `a` forward to `b` on a circle of `n` positions. -/
def off (n a b : ℕ) : ℕ := if a ≤ b then b - a else b + n - a

/-- One step forward. -/
def next (n i : ℕ) : ℕ := if i + 1 = n then 0 else i + 1

theorem off_self (n a : ℕ) : off n a a = 0 := by simp [off]

theorem off_lt {n a b : ℕ} (ha : a < n) (hb : b < n) : off n a b < n := by
  unfold off; split_ifs <;> omega

theorem off_eq_zero {n a b : ℕ} (ha : a < n) : off n a b = 0 ↔ a = b := by
  unfold off; split_ifs <;> omega

theorem off_inj {n a b c : ℕ} (ha : a < n) (hb : b < n) (hc : c < n)
    (h : off n a b = off n a c) : b = c := by
  unfold off at h; split_ifs at h <;> omega

theorem next_lt {n i : ℕ} (hi : i < n) : next n i < n := by
  unfold next; split_ifs <;> omega

/-- Going on from an intermediate position. -/
theorem off_add {n a b c : ℕ} (ha : a < n) (hb : b < n) (hc : c < n)
    (h : off n a b ≤ off n a c) : off n a c = off n a b + off n b c := by
  unfold off at *; split_ifs at * <;> omega

theorem off_concat {n a b c : ℕ} (ha : a < n) (hb : b < n)
    (h : off n a b + off n b c < n) : off n a c = off n a b + off n b c := by
  unfold off at *; split_ifs at * <;> omega

theorem off_next {n a b : ℕ} (ha : a < n) (h : off n a b + 1 < n) :
    off n a (next n b) = off n a b + 1 := by
  unfold off next at *; split_ifs at * <;> omega

theorem off_next_le {n a b : ℕ} (ha : a < n) : off n a (next n b) ≤ off n a b + 1 := by
  unfold off next; split_ifs <;> omega

/-- The way to `b` is one step longer from the position before. -/
theorem off_next_left {n a b : ℕ} (ha : a < n) (hb : b < n) (h : a ≠ b) :
    off n a b = off n (next n a) b + 1 := by
  unfold off next at *; split_ifs at * <;> omega

section table

variable {γ κ : Type} (key : γ → κ) (e : κ) (n : ℕ) (home : κ → ℕ)

/-- Every position from the home of a stored key up to its own is occupied. -/
def Reachable (T : ℕ → γ) : Prop :=
  ∀ p < n, key (T p) ≠ e → ∀ q < n,
    off n (home (key (T p))) q < off n (home (key (T p))) p → key (T q) ≠ e

/-- No key is stored twice. -/
def Distinct (T : ℕ → γ) : Prop :=
  ∀ p < n, ∀ q < n, key (T p) ≠ e → key (T p) = key (T q) → p = q

/-- A probe for `k` from its home ends at `i`. -/
structure Stops (T : ℕ → γ) (k : κ) (i : ℕ) : Prop where
  lt : i < n
  stop : key (T i) = e ∨ key (T i) = k
  before : ∀ q < n, off n (home k) q < off n (home k) i → key (T q) ≠ e ∧ key (T q) ≠ k

variable {key e n home} {T S S' : ℕ → γ} {k : κ} {i : ℕ}

/-- A probe for a stored key ends on that key. -/
theorem Stops.key_eq (hh : home k < n) (hk : k ≠ e) (hr : Reachable key e n home T)
    (hs : Stops key e n home T k i) {p : ℕ} (hp : p < n) (hpk : key (T p) = k) :
    key (T i) = k := by
  rcases hs.stop with hi | hi
  · rcases Nat.lt_or_ge (off n (home k) i) (off n (home k) p) with h | h
    · have hocc := hr p hp (by rw [hpk]; exact hk) i hs.lt (by rw [hpk]; exact h)
      exact absurd hi hocc
    · rcases Nat.lt_or_eq_of_le h with h | h
      · exact absurd hpk (hs.before p hp h).2
      · rw [← off_inj hh hp hs.lt h]; exact hpk
  · exact hi

/-- A probe for a key that is not stored ends on an empty cell. -/
theorem Stops.absent (hs : Stops key e n home T k i) (habs : ∀ p < n, key (T p) ≠ k) :
    key (T i) = e := by
  rcases hs.stop with hi | hi
  · exact hi
  · exact absurd hi (habs i hs.lt)

/-- Filling the empty cell at which the probe for a new key stopped. -/
theorem Reachable.place (hr : Reachable key e n home T)
    (hs : Stops key e n home T k i) (hi : key (T i) = e) {c : γ} (hc : key c = k)
    (hS : ∀ q < n, S q = if q = i then c else T q) : Reachable key e n home S := by
  intro p hp hpe q hq hoff
  rw [hS q hq]
  split_ifs with hqi
  · -- The filled cell holds `k`, which is not the empty key: its own path shows it.
    subst hqi
    rw [hc]
    intro hke
    rw [hS p hp] at hpe hoff
    split_ifs at hpe hoff with hpi
    · exact hpe (hc.trans hke)
    · have := hr p hp hpe q hq hoff
      exact this hi
  · rw [hS p hp] at hpe hoff
    split_ifs at hpe hoff with hpi
    · subst hpi
      rw [hc] at hoff
      exact (hs.before q hq hoff).1
    · exact hr p hp hpe q hq hoff

theorem Distinct.place (hd : Distinct key e n T) (habs : ∀ p < n, key (T p) ≠ k) {c : γ}
    (hc : key c = k) (hS : ∀ q < n, S q = if q = i then c else T q) : Distinct key e n S := by
  intro p hp q hq hpe heq
  rw [hS p hp, hS q hq] at heq
  rw [hS p hp] at hpe
  split_ifs at heq hpe with h1 h2 h2
  · rw [h1, h2]
  · exact absurd (heq.symm.trans hc) (habs q hq)
  · exact absurd (heq.trans hc) (habs p hp)
  · exact hd p hp q hq hpe heq

/-! ### Deletion -/

/-- The table `S` while the deletion of `k` from `T` moves its hole: the hole is at `h` (where a
stale cell remains) and the cells up to `j` have been examined. -/
structure HoleInv (key : γ → κ) (e : κ) (n : ℕ) (home : κ → ℕ) (T : ℕ → γ) (k : κ)
    (S : ℕ → γ) (h j : ℕ) : Prop where
  hole_lt : h < n
  scan_lt : j < n
  occ : ∀ q < n, key (S q) = e ↔ key (T q) = e
  cells : ∀ c, key c ≠ e → key c ≠ k → ((∃ q < n, q ≠ h ∧ S q = c) ↔ ∃ q < n, T q = c)
  gone : ∀ q < n, q ≠ h → key (S q) ≠ k
  distinct : ∀ p < n, ∀ q < n, p ≠ h → q ≠ h → key (S p) ≠ e → key (S p) = key (S q) → p = q
  path : ∀ p < n, p ≠ h → key (S p) ≠ e → ∀ q < n,
    off n (home (key (S p))) q < off n (home (key (S p))) p → key (S q) ≠ e
  ahead : ∀ p < n, p ≠ h → key (S p) ≠ e →
    off n (home (key (S p))) h < off n (home (key (S p))) p → off n h j < off n h p
  run : ∀ q < n, off n h q ≤ off n h j → key (S q) ≠ e

/-- The hole starts at the cell of the deleted key. -/
theorem HoleInv.start (hr : Reachable key e n home T) (hd : Distinct key e n T) (hk : k ≠ e)
    (hi : i < n) (hik : key (T i) = k) : HoleInv key e n home T k T i i where
  hole_lt := hi
  scan_lt := hi
  occ _ _ := Iff.rfl
  cells c hce hck := by
    constructor
    · rintro ⟨q, hq, -, rfl⟩; exact ⟨q, hq, rfl⟩
    · rintro ⟨q, hq, rfl⟩
      refine ⟨q, hq, ?_, rfl⟩
      rintro rfl
      exact hck hik
  gone q hq hne heq :=
    hne (hd q hq i hi (by rw [heq]; exact hk) (heq.trans hik.symm))
  distinct p hp q hq _ _ := hd p hp q hq
  path p hp _ := hr p hp
  ahead p hp hne _ _ := by
    rw [off_self]
    exact Nat.pos_of_ne_zero fun h => hne ((off_eq_zero hi).mp h).symm
  run q hq h := by
    rw [off_self] at h
    have : i = q := (off_eq_zero hi).mp (by omega)
    rw [← this, hik]
    exact hk

section step

variable {h j : ℕ} (H : HoleInv key e n home T k S h j) {z : ℕ} (hz : z < n)
  (hze : key (T z) = e)

include H hz hze

/-- The examined cells stay clear of the empty one, so the scan does not come full circle. -/
theorem HoleInv.off_scan_lt : off n h j + 1 < n := by
  have hlt := off_lt H.hole_lt hz
  have hne : ¬ off n h z ≤ off n h j := fun hle =>
    H.run z hz hle ((H.occ z hz).mpr hze)
  omega

theorem HoleInv.off_scan_next : off n h (next n j) = off n h j + 1 :=
  off_next H.hole_lt (H.off_scan_lt hz hze)

theorem HoleInv.scan_next_ne_hole : next n j ≠ h := by
  intro heq
  have := H.off_scan_next hz hze
  rw [heq, off_self] at this
  omega

/-- The cell after the scan may fill the hole: its home is at or before the hole. -/
theorem HoleInv.move (hj : key (S (next n j)) ≠ e)
    (hin : off n (home (key (S (next n j)))) h <
      off n (home (key (S (next n j)))) (next n j))
    (hS : ∀ q < n, S' q = if q = h then S (next n j) else S q) :
    HoleInv key e n home T k S' (next n j) (next n j) := by
  have hjn := next_lt H.scan_lt
  have hjh := H.scan_next_ne_hole hz hze
  have hfill : S' h = S (next n j) := by rw [hS h H.hole_lt, if_pos rfl]
  have hkeep : ∀ q < n, q ≠ h → S' q = S q := fun q hq hne => by rw [hS q hq, if_neg hne]
  have hholeocc : key (S h) ≠ e := H.run h H.hole_lt (by rw [off_self]; omega)
  have hocc : ∀ q < n, key (S' q) = e ↔ key (S q) = e := by
    intro q hq
    by_cases hqh : q = h
    · subst hqh
      rw [hfill]
      exact ⟨fun h' => absurd h' hj, fun h' => absurd h' hholeocc⟩
    · rw [hkeep q hq hqh]
  refine ⟨hjn, hjn, fun q hq => (hocc q hq).trans (H.occ q hq), ?_, ?_, ?_, ?_, ?_, ?_⟩
  · intro c hce hck
    rw [← H.cells c hce hck]
    constructor
    · rintro ⟨q, hq, hqj, rfl⟩
      by_cases hqh : q = h
      · subst hqh
        exact ⟨next n j, hjn, hjh, hfill.symm⟩
      · exact ⟨q, hq, hqh, (hkeep q hq hqh).symm⟩
    · rintro ⟨q, hq, hqh, rfl⟩
      by_cases hqj : q = next n j
      · subst hqj
        exact ⟨h, H.hole_lt, fun h' => hjh h'.symm, hfill⟩
      · exact ⟨q, hq, hqj, hkeep q hq hqh⟩
  · intro q hq hqj
    by_cases hqh : q = h
    · subst hqh; rw [hfill]; exact H.gone _ hjn hjh
    · rw [hkeep q hq hqh]; exact H.gone q hq hqh
  · intro p hp q hq hpj hqj hpe heq
    by_cases hph : p = h <;> by_cases hqh : q = h
    · rw [hph, hqh]
    · subst hph
      rw [hfill] at heq hpe
      rw [hkeep q hq hqh] at heq
      exact absurd (H.distinct _ hjn q hq hjh hqh hpe heq).symm hqj
    · subst hqh
      rw [hfill] at heq
      rw [hkeep p hp hph] at heq hpe
      exact absurd (H.distinct p hp _ hjn hph hjh hpe heq) hpj
    · rw [hkeep p hp hph] at heq hpe
      rw [hkeep q hq hqh] at heq
      exact H.distinct p hp q hq hph hqh hpe heq
  · intro p hp hpj hpe q hq hoff
    rw [Ne, hocc q hq]
    by_cases hph : p = h
    · subst hph
      rw [hfill] at hoff hpe
      exact H.path _ hjn hjh hpe q hq (by omega)
    · rw [hkeep p hp hph] at hoff hpe
      exact H.path p hp hph hpe q hq hoff
  · intro p hp hpj _ _
    rw [off_self]
    exact Nat.pos_of_ne_zero fun h' => hpj ((off_eq_zero hjn).mp h').symm
  · intro q hq hle
    rw [off_self] at hle
    have : next n j = q := (off_eq_zero hjn).mp (by omega)
    rw [← this, hkeep _ hjn hjh]
    exact hj

/-- The cell after the scan stays where it is: the hole is not on its path. -/
theorem HoleInv.skip (hj : key (S (next n j)) ≠ e)
    (hout : ¬ off n (home (key (S (next n j)))) h <
      off n (home (key (S (next n j)))) (next n j)) :
    HoleInv key e n home T k S h (next n j) := by
  have hnext := H.off_scan_next hz hze
  refine ⟨H.hole_lt, next_lt H.scan_lt, H.occ, H.cells, H.gone, H.distinct, H.path, ?_, ?_⟩
  · intro p hp hph hpe hon
    have hlt := H.ahead p hp hph hpe hon
    have hne : off n h p ≠ off n h (next n j) := by
      intro heq
      have : p = next n j := off_inj H.hole_lt hp (next_lt H.scan_lt) heq
      subst this
      exact hout hon
    omega
  · intro q hq hle
    by_cases heq : off n h q = off n h (next n j)
    · rw [off_inj H.hole_lt hq (next_lt H.scan_lt) heq]; exact hj
    · exact H.run q hq (by omega)

end step

/-- The scan reached the end of the run: no path goes through the hole any more, and the hole
can be emptied. -/
theorem HoleInv.close {h j : ℕ} (H : HoleInv key e n home T k S h j)
    (hhome : ∀ x, home x < n) {z : ℕ} (hz : z < n) (hze : key (T z) = e)
    (hj : key (S (next n j)) = e) {c : γ} (hc : key c = e)
    (hS : ∀ q < n, S' q = if q = h then c else S q) :
    Reachable key e n home S' ∧ Distinct key e n S' ∧
      ∀ d, key d ≠ e → ((∃ q < n, S' q = d) ↔ key d ≠ k ∧ ∃ q < n, T q = d) := by
  have hkeep : ∀ q < n, q ≠ h → S' q = S q := fun q hq hne => by rw [hS q hq, if_neg hne]
  have hfill : S' h = c := by rw [hS h H.hole_lt, if_pos rfl]
  have hnh : ∀ p < n, key (S' p) ≠ e → p ≠ h := by
    rintro p hp hpe rfl
    exact hpe (hfill ▸ hc)
  have hjn := next_lt H.scan_lt
  refine ⟨?_, ?_, ?_⟩
  · intro p hp hpe q hq hoff
    have hph := hnh p hp hpe
    rw [hkeep p hp hph] at hpe hoff
    by_cases hqh : q = h
    · -- The hole on the path of `p` would put the empty cell at the scan on it as well.
      subst hqh
      exfalso
      have hlt := H.ahead p hp hph hpe hoff
      have hnext := H.off_scan_next hz hze
      have hne : off n q p ≠ off n q (next n j) := by
        intro heq
        rw [off_inj H.hole_lt hp hjn heq] at hpe
        exact hpe hj
      have hpath := H.path p hp hph hpe (next n j) hjn
      have hhm := hhome (key (S p))
      have h1 := off_add hhm H.hole_lt hp (Nat.le_of_lt hoff)
      have h2 := off_lt hhm hp
      have h3 : off n (home (key (S p))) (next n j) =
          off n (home (key (S p))) q + off n q (next n j) :=
        off_concat hhm H.hole_lt (by omega)
      exact hpath (by omega) hj
    · rw [hkeep q hq hqh]
      exact H.path p hp hph hpe q hq hoff
  · intro p hp q hq hpe heq
    have hph := hnh p hp hpe
    have hqh := hnh q hq (heq ▸ hpe)
    rw [hkeep p hp hph] at heq hpe
    rw [hkeep q hq hqh] at heq
    exact H.distinct p hp q hq hph hqh hpe heq
  · intro d hde
    constructor
    · rintro ⟨q, hq, rfl⟩
      have hqh := hnh q hq hde
      have hne := H.gone q hq hqh
      rw [← hkeep q hq hqh] at hne
      exact ⟨hne, (H.cells _ hde hne).mp ⟨q, hq, hqh, (hkeep q hq hqh).symm⟩⟩
    · rintro ⟨hdk, hex⟩
      obtain ⟨q, hq, hqh, rfl⟩ := (H.cells d hde hdk).mpr hex
      exact ⟨q, hq, hkeep q hq hqh⟩

end table

end Probing
