import Mathlib.Data.List.GetD
import LimitOrderBook.Store
import LimitOrderBook.Probing

/-! # The open-addressing id map

`IdMap V` is the map of `include/lob/id_map.hpp`: one flat array of key/value slots, linear
probing from a Fibonacci hash, backward-shift deletion and doubling growth.  Key `0` marks an
empty slot.  Slot counts are natural numbers: the doubling in `grow` is never seen wrapped,
since a vector of `2 ^ 64` slots is beyond any `max_size`.

The probe loops carry a fuel argument equal to the slot count.  Under the invariant `WF` an
empty slot always exists, so every loop ends on its own condition before the fuel does
(`WF.seek_stops`, `WF.shiftBack_spec`), and the map is a finite map: `find_insert` and
`find_erase` describe every lookup after a change, and `size` counts the stored keys. -/

namespace Lob

open Probing

structure Slot (V : Type) where
  key : OrderId := 0
  val : V
deriving DecidableEq, Repr

instance {V : Type} [Inhabited V] : Inhabited (Slot V) := ⟨⟨0, default⟩⟩

structure IdMap (V : Type) where
  slots : List (Slot V)
  mask : ℕ
  shift : ℕ
  count : ℕ
  grows : ℕ
deriving DecidableEq, Repr

namespace IdMap

/-- `std::countr_zero` on a 64-bit value. -/
def countrZero (n : ℕ) : ℕ := (BitVec.ofNat 64 n).ctz.toNat

/-- The doubling loop of the constructor, on a 64-bit counter. -/
def roundUp (minSlots : ℕ) : ℕ → ℕ → ℕ
  | 0, n => n
  | fuel + 1, n => if n < minSlots then roundUp minSlots fuel (2 * n % 2 ^ 64) else n

/-- Is `i` in the cyclic half-open range `[ideal, j)`? -/
def inCyclicRange (ideal i j : ℕ) : Bool :=
  if ideal ≤ j then decide (ideal ≤ i ∧ i < j) else decide (ideal ≤ i ∨ i < j)

section ops

variable {V : Type} [Inhabited V]

/-- A table of `n` empty slots. -/
def blank (n grows : ℕ) : IdMap V :=
  { slots := List.replicate n default, mask := n - 1, shift := 64 - countrZero n, count := 0,
    grows := grows }

def new (minSlots : ℕ) : IdMap V := blank (roundUp minSlots 64 16) 0

def slot (m : IdMap V) (i : ℕ) : Slot V := m.slots.getD i default

/-- Fibonacci hashing: the top bits of the product with `2 ^ 64 / φ`. -/
def home (m : IdMap V) (k : OrderId) : ℕ := (k * 0x9E3779B97F4A7C15).toNat >>> m.shift

/-- The probe loop shared by `find`, `insert` and `erase`: walk to the first slot that is empty
or holds `k`. -/
def seek (m : IdMap V) (k : OrderId) : ℕ → ℕ → ℕ
  | 0, i => i
  | fuel + 1, i =>
      if (m.slot i).key = 0 ∨ (m.slot i).key = k then i
      else seek m k fuel ((i + 1) &&& m.mask)

def probe (m : IdMap V) (k : OrderId) : ℕ := m.seek k m.slots.length (m.home k)

def find (m : IdMap V) (k : OrderId) : Option V :=
  if (m.slot (m.probe k)).key = 0 then none else some (m.slot (m.probe k)).val

/-- `insert` after its growth check. -/
def place (m : IdMap V) (k : OrderId) (v : V) : IdMap V × Bool :=
  if (m.slot (m.probe k)).key = 0 then
    ({ m with slots := m.slots.set (m.probe k) ⟨k, v⟩, count := m.count + 1 }, true)
  else (m, false)

/-- `grow`: double the table and re-insert every occupied slot through `ins`. -/
def grow (ins : IdMap V → OrderId → V → IdMap V × Bool) (m : IdMap V) : IdMap V :=
  m.slots.foldl (fun acc s => if s.key = 0 then acc else (ins acc s.key s.val).1)
    (blank (m.slots.length * 2) (m.grows + 1))

/-- `insert`, whose rehash goes through `insert` again; the first argument bounds the
nesting. -/
def insertAux : ℕ → IdMap V → OrderId → V → IdMap V × Bool
  | 0, m, k, v => m.place k v
  | depth + 1, m, k, v =>
      (if m.slots.length < (m.count + 1) * 2 then grow (insertAux depth) m else m).place k v

def insert (m : IdMap V) (k : OrderId) (v : V) : IdMap V × Bool := insertAux 64 m k v

/-- The backward-shift loop of `erase`: returns the slots and the final hole. -/
def shiftBack (m : IdMap V) : ℕ → List (Slot V) → ℕ → ℕ → List (Slot V) × ℕ
  | 0, slots, hole, _ => (slots, hole)
  | fuel + 1, slots, hole, j =>
      let j := (j + 1) &&& m.mask
      let s := slots.getD j default
      if s.key = 0 then (slots, hole)
      else if inCyclicRange (m.home s.key) hole j then shiftBack m fuel (slots.set hole s) j j
      else shiftBack m fuel slots hole j

def erase (m : IdMap V) (k : OrderId) : IdMap V × Bool :=
  let i := m.probe k
  if (m.slot i).key = k then
    let (slots, hole) := m.shiftBack m.slots.length m.slots i i
    ({ m with slots := slots.set hole { slots.getD hole default with key := 0 },
              count := m.count - 1 }, true)
  else (m, false)

def size (m : IdMap V) : ℕ := m.count
def growCount (m : IdMap V) : ℕ := m.grows

end ops

/-! ### Slots, masks and homes -/

section arith

theorem countrZero_two_pow {b : ℕ} (hb : b < 64) : countrZero (2 ^ b) = b := by
  unfold countrZero
  have hne : BitVec.ofNat 64 (2 ^ b) ≠ 0#64 := by
    intro h
    have := congrArg BitVec.toNat h
    rw [BitVec.toNat_ofNat, Nat.mod_eq_of_lt (Nat.pow_lt_pow_right (by omega) hb)] at this
    simp at this
  have htrue := BitVec.getLsbD_true_ctz_of_ne_zero hne
  rw [BitVec.getLsbD_ofNat, Nat.testBit_two_pow] at htrue
  simp only [Bool.and_eq_true, decide_eq_true_eq] at htrue
  exact htrue.2.symm

theorem countrZero_two_pow_of_le {b : ℕ} (hb : 64 ≤ b) : countrZero (2 ^ b) = 64 := by
  unfold countrZero
  have : BitVec.ofNat 64 (2 ^ b) = 0#64 := by
    apply BitVec.eq_of_toNat_eq
    rw [BitVec.toNat_ofNat]
    exact Nat.mod_eq_zero_of_dvd (Nat.pow_dvd_pow 2 hb)
  rw [this]
  decide +kernel

theorem shiftRight_lt {x b : ℕ} (hx : x < 2 ^ 64) : x >>> (64 - countrZero (2 ^ b)) < 2 ^ b := by
  rw [Nat.shiftRight_eq_div_pow]
  by_cases hb : b < 64
  · rw [countrZero_two_pow hb, Nat.div_lt_iff_lt_mul (Nat.two_pow_pos _), ← Nat.pow_add]
    have : b + (64 - b) = 64 := by omega
    rwa [this]
  · rw [countrZero_two_pow_of_le (by omega)]
    have : 2 ^ 64 ≤ 2 ^ b := Nat.pow_le_pow_right (by omega) (by omega)
    simp only [Nat.sub_self, Nat.pow_zero, Nat.div_one]
    omega

theorem mask_next {b i : ℕ} (hi : i < 2 ^ b) : (i + 1) &&& (2 ^ b - 1) = next (2 ^ b) i := by
  rw [Nat.and_two_pow_sub_one_eq_mod]
  unfold next
  split_ifs with h
  · rw [h, Nat.mod_self]
  · exact Nat.mod_eq_of_lt (by omega)

theorem inCyclicRange_iff {n ideal i j : ℕ} (hideal : ideal < n) (hi : i < n) (hj : j < n) :
    inCyclicRange ideal i j = true ↔ off n ideal i < off n ideal j := by
  unfold inCyclicRange off
  split_ifs <;> simp only [decide_eq_true_eq] <;> omega

end arith

/-! ### The invariant -/

section invariant

variable {V : Type} [Inhabited V]

/-- The slot count is a power of two of at least 16 slots, at most half of the slots are
occupied, no key occurs twice and every key is reachable from its home. -/
structure WF (m : IdMap V) : Prop where
  pow : ∃ b, 4 ≤ b ∧ m.slots.length = 2 ^ b
  mask_eq : m.mask = m.slots.length - 1
  shift_eq : m.shift = 64 - countrZero m.slots.length
  count_eq : m.count = m.slots.countP (fun s => decide (s.key ≠ 0))
  load : m.count * 2 ≤ m.slots.length
  reach : Reachable Slot.key 0 m.slots.length m.home m.slot
  distinct : Distinct Slot.key 0 m.slots.length m.slot

/-- The occupied slot `s` is in the table. -/
def Stored (m : IdMap V) (s : Slot V) : Prop := s.key ≠ 0 ∧ ∃ q < m.slots.length, m.slot q = s

theorem getD_set {l : List (Slot V)} {i : ℕ} (hi : i < l.length) (s : Slot V) (q : ℕ) :
    (l.set i s).getD q default = if q = i then s else l.getD q default := by
  rw [List.getD_eq_getElem?_getD, List.getElem?_set]
  by_cases h : q = i
  · subst h
    simp [hi]
  · have h' : ¬ i = q := fun e => h e.symm
    simp [h, h', List.getD_eq_getElem?_getD]

namespace WF

variable {m : IdMap V} (hm : m.WF)

include hm

theorem length_pos : 0 < m.slots.length := by
  obtain ⟨b, _, hb⟩ := hm.pow
  rw [hb]
  exact Nat.two_pow_pos b

theorem home_lt (k : OrderId) : m.home k < m.slots.length := by
  obtain ⟨b, _, hb⟩ := hm.pow
  unfold home
  rw [hm.shift_eq, hb]
  exact shiftRight_lt (UInt64.toNat_lt _)

theorem step_eq {i : ℕ} (hi : i < m.slots.length) :
    (i + 1) &&& m.mask = next m.slots.length i := by
  obtain ⟨b, _, hb⟩ := hm.pow
  rw [hm.mask_eq, hb]
  exact mask_next (hb ▸ hi)

/-- At most half of the slots are occupied, so some slot is empty. -/
theorem exists_empty : ∃ z < m.slots.length, (m.slot z).key = 0 := by
  by_contra h
  push Not at h
  have hall : m.slots.countP (fun s => decide (s.key ≠ 0)) = m.slots.length := by
    rw [List.countP_eq_length]
    intro s hs
    obtain ⟨i, hi, rfl⟩ := List.mem_iff_getElem.mp hs
    have := h i hi
    rw [slot, List.getD_eq_getElem _ _ hi] at this
    simpa using this
  have h1 := hm.load
  have h2 := hm.length_pos
  rw [hm.count_eq, hall] at h1
  omega

/-- The probe loop ends on its own condition. -/
theorem seek_stops {k : OrderId} {z : ℕ} (hz : z < m.slots.length) (hze : (m.slot z).key = 0) :
    ∀ {fuel i : ℕ}, i < m.slots.length → off m.slots.length i z < fuel →
      (∀ q < m.slots.length, off m.slots.length (m.home k) q < off m.slots.length (m.home k) i →
        (m.slot q).key ≠ 0 ∧ (m.slot q).key ≠ k) →
      Stops Slot.key 0 m.slots.length m.home m.slot k (m.seek k fuel i)
  | 0, _, _, hf, _ => by omega
  | fuel + 1, i, hi, hf, hbefore => by
      unfold seek
      split_ifs with hstop
      · exact ⟨hi, hstop, hbefore⟩
      · push Not at hstop
        have hiz : i ≠ z := by rintro rfl; exact hstop.1 hze
        rw [hm.step_eq hi]
        have hnext := off_next_left hi hz hiz
        refine seek_stops hz hze (next_lt hi) (by omega) ?_
        intro q hq hlt
        have hcase : off m.slots.length (m.home k) (next m.slots.length i) ≤
            off m.slots.length (m.home k) i + 1 := off_next_le (hm.home_lt k)
        by_cases heq : off m.slots.length (m.home k) q = off m.slots.length (m.home k) i
        · rw [off_inj (hm.home_lt k) hq hi heq]; exact hstop
        · exact hbefore q hq (by omega)

theorem probe_stops (k : OrderId) :
    Stops Slot.key 0 m.slots.length m.home m.slot k (m.probe k) := by
  obtain ⟨z, hz, hze⟩ := hm.exists_empty
  refine hm.seek_stops hz hze (hm.home_lt k) (off_lt (hm.home_lt k) hz) ?_
  intro q _ hlt
  rw [off_self] at hlt
  omega

/-- `find` returns exactly the stored values. -/
theorem find_eq_some {k : OrderId} {v : V} : m.find k = some v ↔ m.Stored ⟨k, v⟩ := by
  have hs := hm.probe_stops k
  unfold find Stored
  constructor
  · intro h
    split_ifs at h with h0
    have hk : (m.slot (m.probe k)).key = k := hs.stop.resolve_left h0
    refine ⟨fun he => h0 (hk.trans he), m.probe k, hs.lt, ?_⟩
    obtain rfl := Option.some.inj h
    cases hsl : m.slot (m.probe k)
    rw [hsl] at hk
    simp only at hk
    rw [hk]
  · rintro ⟨hk0, q, hq, hslot⟩
    have hqk : (m.slot q).key = k := by rw [hslot]
    have hk := hs.key_eq (hm.home_lt k) hk0 hm.reach hq hqk
    have heq : m.probe k = q :=
      hm.distinct _ hs.lt q hq (by rw [hk]; exact hk0) (hk.trans hqk.symm)
    rw [heq, hslot]
    simp only at hk0
    simp [hk0]

theorem find_eq_none {k : OrderId} (hk : k ≠ 0) :
    m.find k = none ↔ ∀ q < m.slots.length, (m.slot q).key ≠ k := by
  constructor
  · intro h q hq heq
    have : m.find k = some (m.slot q).val := by
      rw [hm.find_eq_some]
      refine ⟨hk, q, hq, ?_⟩
      cases hsl : m.slot q
      rw [hsl] at heq
      simp only at heq
      rw [heq]
    rw [h] at this
    cases this
  · intro h
    cases hf : m.find k with
    | none => rfl
    | some v =>
        obtain ⟨_, q, hq, hslot⟩ := hm.find_eq_some.mp hf
        exact absurd (by rw [hslot]) (h q hq)

@[simp] theorem find_zero : m.find 0 = none := by
  cases hf : m.find 0 with
  | none => rfl
  | some v => exact absurd rfl (hm.find_eq_some.mp hf).1

end WF

/-! ### Insertion and growth -/

section insertion

variable {m : IdMap V} {k : OrderId} {v : V}

/-- `place` on a new key, with room for it. -/
theorem place_spec (hm : m.WF) (hk : k ≠ 0) (habs : ∀ q < m.slots.length, (m.slot q).key ≠ k)
    (hroom : (m.count + 1) * 2 ≤ m.slots.length) :
    (m.place k v).1.WF ∧ (m.place k v).2 = true ∧
      (m.place k v).1.slots.length = m.slots.length ∧
      (m.place k v).1.count = m.count + 1 ∧ (m.place k v).1.grows = m.grows ∧
      ∀ s, (m.place k v).1.Stored s ↔ s = ⟨k, v⟩ ∨ m.Stored s := by
  have hs := hm.probe_stops k
  have h0 := hs.absent habs
  have hlt := hs.lt
  obtain ⟨m', hm'⟩ : ∃ m' : IdMap V, m' =
      { m with slots := m.slots.set (m.probe k) ⟨k, v⟩, count := m.count + 1 } := ⟨_, rfl⟩
  have hplace : m.place k v = (m', true) := by
    unfold place; rw [if_pos h0, hm']
  rw [hplace]
  have hlen : m'.slots.length = m.slots.length := by simp [hm']
  have hhome : m'.home = m.home := by rw [hm']; rfl
  have hslot : ∀ q, m'.slot q = if q = m.probe k then ⟨k, v⟩ else m.slot q := by
    intro q
    rw [hm']
    exact getD_set hlt _ q
  refine ⟨⟨?_, ?_, ?_, ?_, ?_, ?_, ?_⟩, rfl, hlen, by rw [hm'], by rw [hm'], ?_⟩
  · rw [hlen]; exact hm.pow
  · rw [hlen, hm']; exact hm.mask_eq
  · rw [hlen, hm']; exact hm.shift_eq
  · have hcount := List.countP_set (p := fun s : Slot V => decide (s.key ≠ 0)) (a := ⟨k, v⟩) hlt
    have hold : m.slots[m.probe k].key = 0 := by
      rw [slot, List.getD_eq_getElem _ _ hlt] at h0
      exact h0
    simp only [hm', hcount, hold, hm.count_eq]
    simp [hk]
  · rw [hlen, hm']; exact hroom
  · rw [hlen, hhome]
    exact hm.reach.place hs h0 rfl (fun q _ => hslot q)
  · rw [hlen]
    exact hm.distinct.place habs rfl (fun q _ => hslot q)
  · intro s
    constructor
    · rintro ⟨hs0, q, hq, rfl⟩
      rw [hslot] at hs0 ⊢
      split_ifs with hqp
      · exact Or.inl rfl
      · rw [if_neg hqp] at hs0
        exact Or.inr ⟨hs0, q, hlen ▸ hq, rfl⟩
    · rintro (rfl | ⟨hs0, q, hq, rfl⟩)
      · exact ⟨hk, m.probe k, by rw [hlen]; exact hlt, by rw [hslot, if_pos rfl]⟩
      · refine ⟨hs0, q, by rw [hlen]; exact hq, ?_⟩
        rw [hslot, if_neg]
        rintro rfl
        exact hs0 h0

theorem blank_wf {b : ℕ} (hb : 4 ≤ b) (g : ℕ) : (blank (2 ^ b) g : IdMap V).WF where
  pow := ⟨b, hb, by simp [blank]⟩
  mask_eq := by simp [blank]
  shift_eq := by simp [blank]
  count_eq := by
    symm
    simp only [blank, List.countP_eq_zero]
    intro s hs
    rw [(List.mem_replicate.mp hs).2]
    simp [default]
  load := by simp [blank]
  reach := by
    intro p hp hpe
    exact absurd (blank_key p) hpe
  distinct := by
    intro p hp q hq hpe
    exact absurd (blank_key p) hpe
where
  blank_key (p : ℕ) : ((blank (2 ^ b) g : IdMap V).slot p).key = 0 := by
    simp only [slot, blank, List.getD_eq_getElem?_getD, List.getElem?_replicate]
    split_ifs <;> rfl

theorem blank_stored (n g : ℕ) (s : Slot V) : ¬ (blank n g : IdMap V).Stored s := by
  rintro ⟨hs, q, hq, rfl⟩
  apply hs
  simp only [slot, blank, List.getD_eq_getElem?_getD, List.getElem?_replicate]
  split_ifs <;> rfl

/-- With room for one more key, `insert` is `place`, at any nesting. -/
theorem insertAux_of_room (d : ℕ) (hroom : (m.count + 1) * 2 ≤ m.slots.length) :
    insertAux d m k v = m.place k v := by
  cases d with
  | zero => rfl
  | succ d =>
      rw [insertAux, if_neg]
      omega

/-- The rehash loop of `grow`, on slots with distinct keys that the new table does not hold: it
never grows again. -/
theorem rehash_spec (d : ℕ) : ∀ {old : List (Slot V)} {acc : IdMap V}, acc.WF →
    old.Pairwise (fun a b => a.key ≠ 0 → a.key ≠ b.key) →
    (∀ s ∈ old, s.key ≠ 0 → ∀ q < acc.slots.length, (acc.slot q).key ≠ s.key) →
    (acc.count + old.countP (fun s => decide (s.key ≠ 0))) * 2 ≤ acc.slots.length →
    ∃ acc', old.foldl (fun acc s => if s.key = 0 then acc
        else (insertAux d acc s.key s.val).1) acc = acc' ∧
      old.foldl (fun acc s => if s.key = 0 then acc else (acc.place s.key s.val).1) acc = acc' ∧
      acc'.WF ∧
      acc'.slots.length = acc.slots.length ∧
      acc'.count = acc.count + old.countP (fun s => decide (s.key ≠ 0)) ∧
      ∀ t, acc'.Stored t ↔ acc.Stored t ∨ t.key ≠ 0 ∧ t ∈ old
  | [], acc, hw, _, _, _ => ⟨acc, by simpa using hw⟩
  | s :: old, acc, hw, hpw, hnew, hroom => by
      obtain ⟨hhead, htail⟩ := List.pairwise_cons.mp hpw
      rw [List.foldl_cons, List.foldl_cons]
      by_cases h0 : s.key = 0
      · -- An empty slot of the old table is skipped.
        simp only [h0, if_true]
        have hroom' : (acc.count + old.countP (fun s => decide (s.key ≠ 0))) * 2 ≤
            acc.slots.length := by simpa [List.countP_cons, h0] using hroom
        obtain ⟨acc', heq, heq', h1, h2, h3, h4⟩ := rehash_spec d hw htail
          (fun t ht => hnew t (List.mem_cons_of_mem s ht)) hroom'
        refine ⟨acc', heq, heq', h1, h2, by rw [h3]; simp [h0], fun t => ?_⟩
        rw [h4 t, List.mem_cons]
        constructor
        · tauto
        · rintro (h | ⟨ht0, rfl | ht⟩)
          · exact Or.inl h
          · exact absurd h0 ht0
          · exact Or.inr ⟨ht0, ht⟩
      · simp only [h0, if_false]
        have hcount : (s :: old).countP (fun s => decide (s.key ≠ 0)) =
            old.countP (fun s => decide (s.key ≠ 0)) + 1 := by simp [h0]
        rw [hcount] at hroom
        have habs := hnew s List.mem_cons_self h0
        obtain ⟨hw', -, hlen, hcnt, -, hst⟩ := place_spec (v := s.val) hw h0 habs (by omega)
        rw [insertAux_of_room d (by omega)]
        have hnew' : ∀ t ∈ old, t.key ≠ 0 →
            ∀ q < (acc.place s.key s.val).1.slots.length,
              ((acc.place s.key s.val).1.slot q).key ≠ t.key := by
          intro t ht ht0 q hq heq
          have hstored : (acc.place s.key s.val).1.Stored ((acc.place s.key s.val).1.slot q) :=
            ⟨by rw [heq]; exact ht0, q, hq, rfl⟩
          rcases (hst _).mp hstored with h | ⟨_, q', hq', h⟩
          · rw [h] at heq
            exact hhead t ht h0 heq
          · exact hnew t (List.mem_cons_of_mem s ht) ht0 q' hq' (by rw [h]; exact heq)
        obtain ⟨acc', heq, heq', h1, h2, h3, h4⟩ :=
          rehash_spec d hw' htail hnew' (by rw [hcnt, hlen]; omega)
        refine ⟨acc', heq, heq', h1, h2.trans hlen, by rw [h3, hcnt, hcount]; omega, fun t => ?_⟩
        rw [h4 t, hst t, List.mem_cons]
        constructor
        · rintro ((rfl | h) | ⟨ht0, ht⟩)
          · exact Or.inr ⟨h0, Or.inl rfl⟩
          · exact Or.inl h
          · exact Or.inr ⟨ht0, Or.inr ht⟩
        · rintro (h | ⟨ht0, rfl | ht⟩)
          · exact Or.inl (Or.inr h)
          · exact Or.inl (Or.inl rfl)
          · exact Or.inr ⟨ht0, ht⟩

/-- The keys of the slot array are distinct as a list. -/
theorem WF.pairwise_slots (hm : m.WF) :
    m.slots.Pairwise (fun a b => a.key ≠ 0 → a.key ≠ b.key) := by
  rw [List.pairwise_iff_getElem]
  intro i j hi hj hij h0 heq
  have hsi : m.slot i = m.slots[i] := List.getD_eq_getElem _ _ hi
  have hsj : m.slot j = m.slots[j] := List.getD_eq_getElem _ _ hj
  have := hm.distinct i hi j hj (by rw [hsi]; exact h0) (by rw [hsi, hsj]; exact heq)
  omega

theorem WF.mem_slots_iff {s : Slot V} (hs : s.key ≠ 0) : s ∈ m.slots ↔ m.Stored s := by
  constructor
  · intro h
    obtain ⟨i, hi, rfl⟩ := List.mem_iff_getElem.mp h
    exact ⟨hs, i, hi, List.getD_eq_getElem _ _ hi⟩
  · rintro ⟨_, q, hq, rfl⟩
    rw [slot, List.getD_eq_getElem _ _ hq]
    exact List.getElem_mem hq

/-- The new table in the middle of `grow`, when the slots `old` have been moved. -/
theorem WF.rehash (hm : m.WF) (d : ℕ) {old rest : List (Slot V)} (h : m.slots = old ++ rest) :
    ∃ acc, old.foldl (fun acc s => if s.key = 0 then acc else (insertAux d acc s.key s.val).1)
        (blank (m.slots.length * 2) (m.grows + 1)) = acc ∧
      old.foldl (fun acc s => if s.key = 0 then acc else (acc.place s.key s.val).1)
        (blank (m.slots.length * 2) (m.grows + 1)) = acc ∧
      acc.WF ∧ acc.slots.length = m.slots.length * 2 ∧
      acc.count = old.countP (fun s => decide (s.key ≠ 0)) ∧
      ∀ t, acc.Stored t ↔ t.key ≠ 0 ∧ t ∈ old := by
  obtain ⟨b, hb, hlen⟩ := hm.pow
  have hload := hm.load
  have hcount := hm.count_eq
  rw [h, List.countP_append] at hcount
  have hblank : (blank (m.slots.length * 2) (m.grows + 1) : IdMap V).WF := by
    rw [hlen, ← Nat.pow_succ]
    exact blank_wf (by omega) _
  have hblen : (blank (m.slots.length * 2) (m.grows + 1) : IdMap V).slots.length =
      m.slots.length * 2 := by simp [blank]
  have hbc : (blank (m.slots.length * 2) (m.grows + 1) : IdMap V).count = 0 := rfl
  have hpair : old.Pairwise fun a b => a.key ≠ 0 → a.key ≠ b.key :=
    (h ▸ hm.pairwise_slots).sublist (List.sublist_append_left _ _)
  obtain ⟨acc, heq, heq', h1, h2, h3, h4⟩ := rehash_spec d hblank hpair
    (fun s _ hs q hq heq => blank_stored _ _ _ ⟨by rw [heq]; exact hs, q, hq, rfl⟩)
    (by rw [hbc, hblen]; omega)
  refine ⟨acc, heq, heq', h1, h2.trans hblen, by rw [h3, hbc, Nat.zero_add], fun t => ?_⟩
  rw [h4 t, or_iff_right (blank_stored _ _ _)]

/-- The nested insertions of `grow` do not grow. -/
theorem grow_eq (hm : m.WF) (d : ℕ) : grow (insertAux d) m = grow place m := by
  obtain ⟨acc, heq, heq', -⟩ := hm.rehash d (List.append_nil _).symm
  exact heq.trans heq'.symm

/-- `grow` keeps the stored slots and leaves room for one more. -/
theorem grow_spec (hm : m.WF) (d : ℕ) :
    (grow (insertAux d) m).WF ∧ (grow (insertAux d) m).count = m.count ∧
      (grow (insertAux d) m).slots.length = m.slots.length * 2 ∧
      ∀ s, (grow (insertAux d) m).Stored s ↔ m.Stored s := by
  obtain ⟨acc, heq, -, h1, h2, h3, h4⟩ := hm.rehash d (List.append_nil _).symm
  unfold grow
  rw [heq]
  refine ⟨h1, h3.trans hm.count_eq.symm, h2, fun s => ?_⟩
  rw [h4 s]
  constructor
  · exact fun ⟨hs, hmem⟩ => (WF.mem_slots_iff hs).mp hmem
  · exact fun h => ⟨h.1, (WF.mem_slots_iff h.1).mpr h⟩

/-- `insert` of a new key, growing the table if need be. -/
theorem insert_spec (hm : m.WF) (hk : k ≠ 0) (habs : m.find k = none) :
    (m.insert k v).1.WF ∧ (m.insert k v).2 = true ∧
      (m.insert k v).1.count = m.count + 1 ∧
      ∀ s, (m.insert k v).1.Stored s ↔ s = ⟨k, v⟩ ∨ m.Stored s := by
  have habs' := (hm.find_eq_none hk).mp habs
  unfold insert
  by_cases hroom : (m.count + 1) * 2 ≤ m.slots.length
  · rw [insertAux_of_room 64 hroom]
    obtain ⟨h1, h2, -, h4, -, h6⟩ := place_spec (v := v) hm hk habs' hroom
    exact ⟨h1, h2, h4, h6⟩
  · rw [insertAux, if_pos (by omega)]
    obtain ⟨h1, h2, h3, h4⟩ := grow_spec hm 63
    have hload := hm.load
    have hpos := hm.length_pos
    obtain ⟨g1, g2, -, g4, -, g6⟩ := place_spec (v := v) h1 hk
      (by
        intro q hq heq
        obtain ⟨_, q', hq', hsl⟩ := (h4 _).mp ⟨by rw [heq]; exact hk, q, hq, rfl⟩
        exact habs' q' hq' (by rw [hsl]; exact heq))
      (by rw [h2, h3]; omega)
    refine ⟨g1, g2, by rw [g4, h2], fun s => ?_⟩
    rw [g6, h4]

theorem find_insert (hm : m.WF) (hk : k ≠ 0) (habs : m.find k = none) (k' : OrderId) :
    (m.insert k v).1.find k' = if k' = k then some v else m.find k' := by
  obtain ⟨hw, -, -, hst⟩ := insert_spec (v := v) hm hk habs
  apply Option.ext
  intro w
  rw [hw.find_eq_some, hst]
  split_ifs with h
  · subst h
    constructor
    · rintro (h | h)
      · simp [(Slot.mk.inj h).2]
      · rw [hm.find_eq_some.mpr h] at habs
        cases habs
    · intro h
      exact Or.inl (by rw [Option.some.inj h])
  · rw [hm.find_eq_some]
    constructor
    · rintro (h' | h')
      · exact absurd (Slot.mk.inj h').1 h
      · exact h'
    · exact Or.inr

end insertion

/-! ### Deletion -/

section deletion

variable {m : IdMap V} {k : OrderId}

theorem length_shiftBack (m : IdMap V) (fuel : ℕ) (slots : List (Slot V)) (hole j : ℕ) :
    (m.shiftBack fuel slots hole j).1.length = slots.length := by
  induction fuel generalizing slots hole j with
  | zero => rfl
  | succ fuel ih =>
      unfold shiftBack
      simp only
      split_ifs
      · rfl
      · rw [ih, List.length_set]
      · exact ih _ _ _

theorem length_erase (m : IdMap V) (k : OrderId) :
    (m.erase k).1.slots.length = m.slots.length := by
  unfold erase
  simp only
  split_ifs
  · rw [List.length_set, length_shiftBack]
  · rfl

/-- The backward-shift loop ends at the end of the run, with the hole invariant. -/
theorem shiftBack_spec (hm : m.WF) {T : ℕ → Slot V} {z : ℕ} (hz : z < m.slots.length)
    (hze : (T z).key = 0) : ∀ {fuel : ℕ} {slots : List (Slot V)} {h j : ℕ},
    slots.length = m.slots.length → off m.slots.length j z ≤ fuel → j ≠ z →
    HoleInv Slot.key 0 m.slots.length m.home T k (fun i => slots.getD i default) h j →
    ∃ slots' h' j', m.shiftBack fuel slots h j = (slots', h') ∧
      slots'.length = m.slots.length ∧
      slots'.countP (fun s => decide (s.key ≠ 0)) =
        slots.countP (fun s => decide (s.key ≠ 0)) ∧
      HoleInv Slot.key 0 m.slots.length m.home T k (fun i => slots'.getD i default) h' j' ∧
      (slots'.getD (next m.slots.length j') default).key = 0
  | 0, slots, h, j, _, hf, hjz, H => by
      have := off_eq_zero (b := z) H.scan_lt
      omega
  | fuel + 1, slots, h, j, hlen, hf, hjz, H => by
      have hjn := next_lt H.scan_lt
      have hoff := off_next_left H.scan_lt hz hjz
      unfold shiftBack
      simp only [hm.step_eq H.scan_lt]
      by_cases h0 : (slots.getD (next m.slots.length j) default).key = 0
      · rw [if_pos h0]
        exact ⟨slots, h, j, rfl, hlen, rfl, H, h0⟩
      · rw [if_neg h0]
        have hnz : next m.slots.length j ≠ z := by
          rintro rfl
          exact h0 ((H.occ _ hz).mpr hze)
        by_cases hr : inCyclicRange (m.home (slots.getD (next m.slots.length j) default).key) h
            (next m.slots.length j) = true
        · rw [if_pos hr]
          have hin := (inCyclicRange_iff (hm.home_lt _) H.hole_lt hjn).mp hr
          have hset : ∀ q < m.slots.length,
              (slots.set h (slots.getD (next m.slots.length j) default)).getD q default =
                if q = h then slots.getD (next m.slots.length j) default
                else slots.getD q default := fun q _ => getD_set (hlen ▸ H.hole_lt) _ q
          have H' := H.move hz hze h0 hin hset
          have hf' : off m.slots.length (next m.slots.length j) z ≤ fuel := by omega
          obtain ⟨slots', h', j', h1, h2, h3, h4, h5⟩ := shiftBack_spec hm hz hze
            (by rw [List.length_set]; exact hlen) hf' hnz H'
          refine ⟨slots', h', j', h1, h2, ?_, h4, h5⟩
          rw [h3, List.countP_set (hlen ▸ H.hole_lt)]
          -- The hole holds a stale occupied slot, so overwriting it keeps the count.
          have hocc : (slots.getD h default).key ≠ 0 := H.run h H.hole_lt (by rw [off_self]; omega)
          rw [List.getD_eq_getElem _ _ (hlen ▸ H.hole_lt)] at hocc
          have hpos : 0 < slots.countP (fun s => decide (s.key ≠ 0)) :=
            List.countP_pos_iff.mpr ⟨_, List.getElem_mem (hlen ▸ H.hole_lt), by simpa using hocc⟩
          rw [if_pos (by simpa using hocc), if_pos (by simpa using h0)]
          omega
        · rw [if_neg hr]
          have hout := fun hlt => hr ((inCyclicRange_iff (hm.home_lt _) H.hole_lt hjn).mpr hlt)
          exact shiftBack_spec hm hz hze hlen (by omega) hnz (H.skip hz hze h0 hout)

/-- `erase` of a stored key. -/
theorem erase_spec (hm : m.WF) (hk : k ≠ 0) (hfound : m.find k ≠ none) :
    (m.erase k).1.WF ∧ (m.erase k).2 = true ∧ (m.erase k).1.count + 1 = m.count ∧
      ∀ s, (m.erase k).1.Stored s ↔ s.key ≠ k ∧ m.Stored s := by
  obtain ⟨v, hv⟩ := Option.ne_none_iff_exists'.mp hfound
  obtain ⟨_, q, hq, hslot⟩ := hm.find_eq_some.mp hv
  have hs := hm.probe_stops k
  have hkey : (m.slot (m.probe k)).key = k :=
    hs.key_eq (hm.home_lt k) hk hm.reach hq (by rw [hslot])
  obtain ⟨z, hz, hze⟩ := hm.exists_empty
  have hpz : m.probe k ≠ z := by
    intro he
    rw [he, hze] at hkey
    exact hk hkey.symm
  obtain ⟨slots', h', j', heq, hlen, hcount, H, hj0⟩ := shiftBack_spec hm hz hze rfl
    (Nat.le_of_lt (off_lt hs.lt hz)) hpz
    (HoleInv.start hm.reach hm.distinct hk hs.lt hkey)
  obtain ⟨c, hc⟩ : ∃ c : Slot V, c = { slots'.getD h' default with key := 0 } := ⟨_, rfl⟩
  obtain ⟨m', hm'⟩ : ∃ m' : IdMap V, m' =
      { m with slots := slots'.set h' c, count := m.count - 1 } := ⟨_, rfl⟩
  have herase : m.erase k = (m', true) := by
    simp only [erase, hkey, if_true, heq, hm', hc]
  rw [herase]
  have hh' : h' < slots'.length := hlen ▸ H.hole_lt
  have hlen' : m'.slots.length = m.slots.length := by rw [hm']; simpa using hlen
  have hhome : m'.home = m.home := by rw [hm']; rfl
  have hslot' : ∀ q < m.slots.length, m'.slot q = if q = h' then c else slots'.getD q default := by
    intro q _
    rw [hm']
    exact getD_set hh' _ q
  obtain ⟨hreach, hdist, hcells⟩ := H.close hm.home_lt hz hze hj0 (c := c) (by rw [hc]) hslot'
  have hocc : (slots'.getD h' default).key ≠ 0 := H.run h' H.hole_lt (by rw [off_self]; omega)
  have hpos : 0 < m.count := by
    rw [hm.count_eq, ← hcount, List.countP_pos_iff]
    rw [List.getD_eq_getElem _ _ hh'] at hocc
    exact ⟨_, List.getElem_mem hh', by simpa using hocc⟩
  refine ⟨⟨?_, ?_, ?_, ?_, ?_, ?_, ?_⟩, rfl, by rw [hm']; simp only; omega, ?_⟩
  · rw [hlen']; exact hm.pow
  · rw [hlen', hm']; exact hm.mask_eq
  · rw [hlen', hm']; exact hm.shift_eq
  · rw [hm']
    simp only
    rw [List.countP_set hh', hcount, ← hm.count_eq]
    rw [List.getD_eq_getElem _ _ hh'] at hocc
    rw [if_pos (by simpa using hocc), if_neg (by simp [hc])]
    omega
  · have := hm.load
    rw [hlen', hm']
    simp only
    omega
  · rw [hlen', hhome]; exact hreach
  · rw [hlen']; exact hdist
  · intro s
    unfold Stored
    rw [hlen']
    constructor
    · rintro ⟨h0, hex⟩
      obtain ⟨h1, h2⟩ := (hcells s h0).mp hex
      exact ⟨h1, h0, h2⟩
    · rintro ⟨h1, h0, h2⟩
      exact ⟨h0, (hcells s h0).mpr ⟨h1, h2⟩⟩

theorem find_erase (hm : m.WF) (hk : k ≠ 0) (hfound : m.find k ≠ none) (k' : OrderId) :
    (m.erase k).1.find k' = if k' = k then none else m.find k' := by
  obtain ⟨hw, -, -, hst⟩ := erase_spec hm hk hfound
  apply Option.ext
  intro w
  rw [hw.find_eq_some, hst]
  split_ifs with h
  · simp [h]
  · rw [hm.find_eq_some]
    exact ⟨fun h' => h'.2, fun h' => ⟨h, h'⟩⟩

end deletion

/-! ### A fresh map -/

/-- The doubling loop of the constructor ends at a power of two that is large enough. -/
theorem roundUp_pow {minSlots : ℕ} : ∀ {fuel b : ℕ}, 4 ≤ b → b ≤ 63 → 64 ≤ fuel + b →
    minSlots ≤ 2 ^ 63 → ∃ b', 4 ≤ b' ∧ b' ≤ 63 ∧ minSlots ≤ 2 ^ b' ∧
      roundUp minSlots fuel (2 ^ b) = 2 ^ b'
  | 0, b, _, hb63, hfuel, _ => by omega
  | fuel + 1, b, hb, hb63, hfuel, hmin => by
      unfold roundUp
      split_ifs with h
      · have hlt : b < 63 := by
          by_contra hge
          have : b = 63 := by omega
          subst this
          omega
        have hdouble : 2 * 2 ^ b % 2 ^ 64 = 2 ^ (b + 1) := by
          rw [Nat.mul_comm, ← Nat.pow_succ]
          exact Nat.mod_eq_of_lt (Nat.pow_lt_pow_right (by omega) (by omega))
        rw [hdouble]
        exact roundUp_pow (by omega) (by omega) (by omega) hmin
      · exact ⟨b, hb, hb63, by omega, rfl⟩

theorem new_length {minSlots : ℕ} (h : minSlots ≤ 2 ^ 63) : ∃ b, 4 ≤ b ∧ b ≤ 63 ∧
    minSlots ≤ 2 ^ b ∧ (new minSlots : IdMap V).slots.length = 2 ^ b := by
  obtain ⟨b, hb, hb63, hmin, heq⟩ := @roundUp_pow minSlots 64 4 (by omega) (by omega) (by omega) h
  refine ⟨b, hb, hb63, hmin, ?_⟩
  have h16 : (16 : ℕ) = 2 ^ 4 := rfl
  rw [new, h16, heq]
  simp [blank]

theorem new_wf {minSlots : ℕ} (h : minSlots ≤ 2 ^ 63) : (new minSlots : IdMap V).WF := by
  obtain ⟨b, hb, -, -, heq⟩ := @roundUp_pow minSlots 64 4 (by omega) (by omega) (by omega) h
  have h16 : (16 : ℕ) = 2 ^ 4 := rfl
  unfold new
  rw [h16, heq]
  exact blank_wf hb 0

theorem new_find {minSlots : ℕ} (h : minSlots ≤ 2 ^ 63) (k : OrderId) :
    (new minSlots : IdMap V).find k = none := by
  cases hf : (new minSlots : IdMap V).find k with
  | none => rfl
  | some v => exact absurd ((new_wf h).find_eq_some.mp hf) (blank_stored _ _ _)

/-- The engine ignores the flags that `insert` and `erase` return. -/
instance : Index (IdMap V) V where
  find := find
  insert m k v := (m.insert k v).1
  erase m k := (m.erase k).1
  size := size

instance : LawfulIndex (IdMap V) V where
  WF := WF
  Key k := k ≠ 0
  key_of_ne hk := hk
  insert_wf hm hk habs _ := (insert_spec hm hk habs).1
  find_insert hm hk habs _ k' := find_insert hm hk habs k'
  size_insert hm hk habs _ := (insert_spec hm hk habs).2.2.1
  erase_wf hm hk hfound := (erase_spec hm hk hfound).1
  find_erase hm hk hfound k' := find_erase hm hk hfound k'
  size_erase hm hk hfound := (erase_spec hm hk hfound).2.2.1

instance : Reserves (IdMap V) := ⟨fun hk => hk⟩

end invariant

end IdMap

end Lob
