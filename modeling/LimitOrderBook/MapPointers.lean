import LimitOrderBook.FiniteMap

/-! # Pointers into the id map

`find` hands out pointers into the slot array, and an array is gone once `grow` has replaced it.  A
pointer therefore names the array, by the number of growths before it, and the slot (`SlotPtr`).

`insert` tests whether to grow before it probes.  An `insert` of a present key is told that the key
is there, and it changes nothing unless the table is half full: then it doubles the table first,
and every pointer dangles (`insert_present_iff`). -/

namespace Lob

/-- A pointer to the value of a slot: which of the arrays of the map, and where in it. -/
structure SlotPtr where
  table : ℕ
  index : ℕ
deriving DecidableEq, Repr

namespace IdMap

variable {V : Type} [Inhabited V] {m : IdMap V} {k : OrderId} {v : V}

/-- What `find` returns. -/
def findPtr (m : IdMap V) (k : OrderId) : Option SlotPtr :=
  if (m.slot (m.probe k)).key = 0 then none else some ⟨m.grows, m.probe k⟩

/-- The value behind a pointer; none is left where the array is gone. -/
def read? (m : IdMap V) (p : SlotPtr) : Option V :=
  if p.table = m.grows then m.slots[p.index]?.map Slot.val else none

theorem WF.read?_findPtr (hm : m.WF) (k : OrderId) : (m.findPtr k).bind m.read? = m.find k := by
  have hlt := (hm.probe_stops k).lt
  unfold findPtr find
  split_ifs with h0
  · rfl
  · have hslot : m.slots[m.probe k]? = some (m.slot (m.probe k)) := by
      rw [slot, List.getD_eq_getElem _ _ hlt, List.getElem?_eq_getElem hlt]
    simp only [Option.bind_some, read?, if_true, hslot, Option.map_some]

/-- The `insert` returns `false` and changes nothing: the map is the same, and so are the values
behind its pointers. -/
structure Declines (m : IdMap V) (k : OrderId) (v : V) : Prop where
  answer : (m.insert k v).2 = false
  same : (m.insert k v).1 = m
  pointers : ∀ p, m.read? p ≠ none → (m.insert k v).1.read? p = m.read? p

/-! ### Growths are counted -/

theorem grows_place (m : IdMap V) (k : OrderId) (v : V) : (m.place k v).1.grows = m.grows := by
  unfold place
  split_ifs <;> rfl

omit [Inhabited V] in
/-- The rehash loop does not lower the count of growths, if its insertions do not. -/
theorem grows_le_foldl {ins : IdMap V → OrderId → V → IdMap V × Bool}
    (hins : ∀ acc k v, acc.grows ≤ (ins acc k v).1.grows) : ∀ (old : List (Slot V)) (acc : IdMap V),
    acc.grows ≤
      (old.foldl (fun acc s => if s.key = 0 then acc else (ins acc s.key s.val).1) acc).grows
  | [], _ => Nat.le_refl _
  | s :: old, acc => by
      rw [List.foldl_cons]
      refine Nat.le_trans ?_ (grows_le_foldl hins old _)
      split_ifs
      · exact Nat.le_refl _
      · exact hins acc s.key s.val

theorem grows_lt_grow {ins : IdMap V → OrderId → V → IdMap V × Bool}
    (hins : ∀ acc k v, acc.grows ≤ (ins acc k v).1.grows) (m : IdMap V) :
    m.grows < (grow ins m).grows :=
  grows_le_foldl hins m.slots (blank (m.slots.length * 2) (m.grows + 1))

theorem grows_le_insertAux : ∀ (depth : ℕ) (m : IdMap V) (k : OrderId) (v : V),
    m.grows ≤ (insertAux depth m k v).1.grows
  | 0, m, k, v => (grows_place m k v).ge
  | depth + 1, m, k, v => by
      rw [insertAux, grows_place]
      split_ifs
      · exact Nat.le_of_lt (grows_lt_grow (grows_le_insertAux depth) m)
      · exact Nat.le_refl _

/-- Without room for one more key, `insert` grows. -/
theorem grows_lt_insert (hfull : m.slots.length < (m.count + 1) * 2) (k : OrderId) (v : V) :
    m.grows < (m.insert k v).1.grows := by
  rw [insert, insertAux, if_pos hfull, grows_place]
  exact grows_lt_grow (grows_le_insertAux 63) m

/-- The nested insertions of a sound table do not grow it again. -/
theorem WF.grows_grow (hm : m.WF) (d : ℕ) : (grow (insertAux d) m).grows = m.grows + 1 := by
  have hplace : ∀ (old : List (Slot V)) (acc : IdMap V),
      (old.foldl (fun acc s => if s.key = 0 then acc else (acc.place s.key s.val).1) acc).grows =
        acc.grows := by
    intro old
    induction old with
    | nil => exact fun _ => rfl
    | cons s old ih =>
        intro acc
        rw [List.foldl_cons, ih]
        split_ifs
        · rfl
        · exact grows_place acc s.key s.val
  rw [grow_eq hm d, grow, hplace]
  rfl

/-! ### An insert of a present key -/

/-- With room for one more key, `insert` finds the present one first. -/
theorem insert_of_room (hroom : (m.count + 1) * 2 ≤ m.slots.length) (hfound : m.find k ≠ none) :
    m.insert k v = (m, false) := by
  rw [insert, insertAux_of_room 64 hroom, place, if_neg]
  intro h0
  exact hfound (if_pos h0)

omit [Inhabited V] in
/-- No pointer outlives a growth. -/
theorem read?_of_grown {m' : IdMap V} (hlt : m.grows < m'.grows) {p : SlotPtr}
    (hp : m.read? p ≠ none) : m'.read? p = none := by
  have htable : p.table = m.grows := by
    by_contra hne
    exact hp (if_neg hne)
  apply if_neg
  omega

theorem declines_iff (hfound : m.find k ≠ none) :
    m.Declines k v ↔ (m.count + 1) * 2 ≤ m.slots.length := by
  constructor
  · intro h
    by_contra hfull
    have hlt := grows_lt_insert (Nat.not_le.mp hfull) k v
    rw [h.same] at hlt
    exact Nat.lt_irrefl _ hlt
  · intro hroom
    have hinsert := insert_of_room (v := v) hroom hfound
    refine ⟨?_, ?_, fun p _ => ?_⟩
    · rw [hinsert]
    · rw [hinsert]
    · rw [hinsert]

/-- A sound table has no room for one more key exactly when it is half full. -/
theorem WF.full_iff (hm : m.WF) :
    m.slots.length < (m.count + 1) * 2 ↔ m.count * 2 = m.slots.length := by
  obtain ⟨b, hb, hlen⟩ := hm.pow
  obtain ⟨b, rfl⟩ : ∃ b', b = b' + 1 := ⟨b - 1, by omega⟩
  have hload := hm.load
  rw [Nat.pow_succ] at hlen
  omega

/-- In a table that is half full, an `insert` of a present key doubles it and stores nothing. -/
theorem WF.insert_present_full (hm : m.WF) (hfound : m.find k ≠ none)
    (hfull : m.count * 2 = m.slots.length) :
    (m.insert k v).2 = false ∧ (m.insert k v).1.slots.length = m.slots.length * 2 ∧
      (m.insert k v).1.grows = m.grows + 1 ∧ (m.insert k v).1.count = m.count ∧
      ∀ k', (m.insert k v).1.find k' = m.find k' := by
  obtain ⟨hw, hanswer, hcount, hstored⟩ := insert_present (v := v) hm hfound
  have hgrow := hm.full_iff.mpr hfull
  refine ⟨hanswer, ?_, ?_, hcount, fun k' => ?_⟩
  · rw [length_insert hm, if_pos hgrow]
  · rw [insert, insertAux, if_pos hgrow, grows_place, hm.grows_grow]
  · apply Option.ext
    intro w
    rw [hw.find_eq_some, hm.find_eq_some, hstored]

/-- **An `insert` of a present key changes nothing exactly where the table has room for one more.**
Where it has not, no pointer into the map survives. -/
theorem insert_present_iff (minSlots : ℕ) (ops : List (MapOp V)) (k : OrderId) (v : V)
    (hfound : (mapRun minSlots ops).find k ≠ none) :
    ((mapRun minSlots ops).Declines k v ↔
        ((mapRun minSlots ops).size + 1) * 2 ≤ (mapRun minSlots ops).slots.length) ∧
      ((mapRun minSlots ops).slots.length < ((mapRun minSlots ops).size + 1) * 2 →
        ∀ p, (mapRun minSlots ops).read? p ≠ none →
          ((mapRun minSlots ops).insert k v).1.read? p = none) :=
  ⟨declines_iff hfound, fun hfull _ hp => read?_of_grown (grows_lt_insert hfull k v) hp⟩

/-- One key in sixteen slots. -/
theorem insert_present_iff_small : (mapRun 16 [.insert 5 1] : IdMap ℕ).Declines 5 9 :=
  (insert_present_iff 16 [.insert 5 1] 5 9 (by decide +kernel)).1.mpr (by decide +kernel)

/-- Eight keys in sixteen slots. -/
theorem insert_present_doubles :
    let m : IdMap ℕ := mapRun 16 [.insert 1 10, .insert 2 20, .insert 3 30, .insert 4 40,
      .insert 5 50, .insert 6 60, .insert 7 70, .insert 8 80]
    m.find 1 = some 10 ∧ (m.insert 1 20).2 = false ∧ m.slots.length = 16 ∧ m.growCount = 0 ∧
      (m.insert 1 20).1.slots.length = 32 ∧ (m.insert 1 20).1.growCount = 1 ∧
      (m.findPtr 1).bind m.read? = some 10 ∧
      (m.findPtr 1).bind (m.insert 1 20).1.read? = none ∧ ¬ m.Declines 1 20 := by
  refine ⟨by decide +kernel, by decide +kernel, by decide +kernel, by decide +kernel,
    by decide +kernel, by decide +kernel, by decide +kernel, by decide +kernel, fun h => ?_⟩
  have hgrows := congrArg IdMap.grows h.same
  revert hgrows
  decide +kernel

end IdMap

end Lob
