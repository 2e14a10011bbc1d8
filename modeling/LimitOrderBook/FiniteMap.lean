import Mathlib.Data.Finmap
import LimitOrderBook.IdMap
import LimitOrderBook.Loop
import LimitOrderBook.Transition

/-! # The id map is a finite map

Over whole histories of `find`, `insert` and `erase` with nonzero keys the table of
`include/lob/id_map.hpp` answers as a `Finmap` does (`IdMap.finiteMap_run`).  An `insert` of a
present key may double the table before it finds the key; the stored slots stay the same
(`insert_present`).

The loops of the source are stated without their fuel (`Loop.Ends`): under the invariant each of
them is left, with the result of the fuelled function (`WF.loopsEnd`), and the rehash in `grow`
always finds room, so an `insert` grows at most once. -/

namespace Lob

open Probing

/-- One operation of the map. -/
inductive MapOp (V : Type) where
  | find (k : OrderId)
  | insert (k : OrderId) (v : V)
  | erase (k : OrderId)
deriving DecidableEq, Repr

/-- What an operation returns. -/
inductive MapReply (V : Type) where
  | found (v : Option V)
  | done (ok : Bool)
deriving DecidableEq, Repr

def MapOp.key {V : Type} : MapOp V → OrderId
  | find k => k
  | insert k _ => k
  | erase k => k

/-- One operation on the finite map that the table stands for. -/
def finmapStep {V : Type} (f : Finmap fun _ : OrderId => V) :
    MapOp V → (Finmap fun _ : OrderId => V) × MapReply V
  | .find k => (f, .found (f.lookup k))
  | .insert k v => if k ∈ f then (f, .done false) else (f.insert k v, .done true)
  | .erase k => if k ∈ f then (f.erase k, .done true) else (f, .done false)

namespace IdMap

variable {V : Type} [Inhabited V]

/-- One operation on the table. -/
def mapStep (m : IdMap V) : MapOp V → IdMap V × MapReply V
  | .find k => (m, .found (m.find k))
  | .insert k v => ((m.insert k v).1, .done (m.insert k v).2)
  | .erase k => ((m.erase k).1, .done (m.erase k).2)

/-! ### The loops -/

/-- One round of the probe loop. -/
def probeStep (m : IdMap V) (k : OrderId) (i : ℕ) : Option ℕ :=
  if (m.slot i).key = 0 ∨ (m.slot i).key = k then none else some ((i + 1) &&& m.mask)

/-- One round of the backward-shift loop, on the slots, the hole and the scan position. -/
def shiftStep (m : IdMap V) : List (Slot V) × ℕ × ℕ → Option (List (Slot V) × ℕ × ℕ)
  | (slots, hole, j) =>
      let j := (j + 1) &&& m.mask
      let s := slots.getD j default
      if s.key = 0 then none
      else if inCyclicRange (m.home s.key) hole j then some (slots.set hole s, j, j)
      else some (slots, hole, j)

/-- The table while the first slots of `m` have been moved by `grow`. -/
def rehashed (m : IdMap V) (old : List (Slot V)) : IdMap V :=
  old.foldl (fun acc s => if s.key = 0 then acc else (insertAux 63 acc s.key s.val).1)
    (blank (m.slots.length * 2) (m.grows + 1))

/-- Every loop of the map is left, and with the result that the model gives it. -/
structure LoopsEnd (m : IdMap V) : Prop where
  probe : ∀ k, Loop.Ends (m.probeStep k) (m.home k) (m.probe k)
  shift : ∀ k, k ≠ 0 → m.find k ≠ none → ∃ j,
    Loop.Ends m.shiftStep (m.slots, m.probe k, m.probe k)
      ((m.shiftBack m.slots.length m.slots (m.probe k) (m.probe k)).1,
        (m.shiftBack m.slots.length m.slots (m.probe k) (m.probe k)).2, j)
  rehash : ∀ old s rest, m.slots = old ++ s :: rest → s.key ≠ 0 →
    ((m.rehashed old).count + 1) * 2 ≤ (m.rehashed old).slots.length ∧
      Loop.Ends ((m.rehashed old).probeStep s.key) ((m.rehashed old).home s.key)
        ((m.rehashed old).probe s.key)
  nesting : ∀ d k v, insertAux (d + 1) m k v = insertAux 1 m k v

theorem seek_eq_run (m : IdMap V) (k : OrderId) (fuel i : ℕ) :
    m.seek k fuel i = Loop.run (m.probeStep k) fuel i := by
  induction fuel generalizing i with
  | zero => rfl
  | succ fuel ih =>
      unfold seek Loop.run probeStep
      split_ifs with h
      · rfl
      · exact ih _

theorem shiftBack_eq_run (m : IdMap V) (fuel : ℕ) (slots : List (Slot V)) (hole j : ℕ) :
    m.shiftBack fuel slots hole j =
      ((Loop.run m.shiftStep fuel (slots, hole, j)).1,
        (Loop.run m.shiftStep fuel (slots, hole, j)).2.1) := by
  induction fuel generalizing slots hole j with
  | zero => rfl
  | succ fuel ih =>
      unfold shiftBack Loop.run
      simp only [shiftStep]
      split_ifs with h0 hr
      · rfl
      · exact ih _ _ _
      · exact ih _ _ _

namespace WF

variable {m : IdMap V} (hm : m.WF)

include hm

/-- The probe loop moves towards an empty slot. -/
theorem probe_ends (k : OrderId) : Loop.Ends (m.probeStep k) (m.home k) (m.probe k) := by
  obtain ⟨z, hz, hze⟩ := hm.exists_empty
  have hround : ∀ i i', i < m.slots.length → m.probeStep k i = some i' →
      i' < m.slots.length ∧ off m.slots.length i' z < off m.slots.length i z := by
    intro i i' hi h
    unfold probeStep at h
    split_ifs at h with hstop
    rw [not_or] at hstop
    obtain rfl := Option.some.inj h
    have hiz : i ≠ z := by
      rintro rfl
      exact hstop.1 hze
    rw [hm.step_eq hi]
    have := off_next_left hi hz hiz
    exact ⟨next_lt hi, by omega⟩
  rw [probe, seek_eq_run]
  exact Loop.run_ends hround (hm.home_lt k) (off_lt (hm.home_lt k) hz)

/-- The backward-shift loop moves towards an empty slot, which it does not fill. -/
theorem shift_ends {k : OrderId} (hk : k ≠ 0) (hfound : m.find k ≠ none) :
    Loop.Ends m.shiftStep (m.slots, m.probe k, m.probe k)
      (Loop.run m.shiftStep m.slots.length (m.slots, m.probe k, m.probe k)) := by
  obtain ⟨z, hz, hze⟩ := hm.exists_empty
  let Inv : List (Slot V) × ℕ × ℕ → Prop := fun x =>
    (x.1.getD z default).key = 0 ∧ x.2.1 < x.1.length ∧ x.2.2 < m.slots.length ∧
      x.2.1 ≠ z ∧ x.2.2 ≠ z ∧ x.1.length = m.slots.length
  have hround : ∀ x x', Inv x → m.shiftStep x = some x' →
      Inv x' ∧ off m.slots.length x'.2.2 z < off m.slots.length x.2.2 z := by
    rintro ⟨slots, hole, j⟩ x' ⟨hempty, hhole, hj, hholez, hjz, hlen⟩ h
    simp only at hempty hhole hj hholez hjz hlen
    have hoff := off_next_left hj hz hjz
    have hlt := next_lt hj
    simp only [shiftStep, hm.step_eq hj] at h
    split_ifs at h with h0 hr
    · obtain rfl := Option.some.inj h
      have hnz : next m.slots.length j ≠ z := fun he => h0 (he ▸ hempty)
      refine ⟨⟨?_, ?_, hlt, hnz, hnz, ?_⟩, by simp only; omega⟩
      · rw [getD_set hhole, if_neg (Ne.symm hholez)]
        exact hempty
      · rw [List.length_set, hlen]
        exact hlt
      · rw [List.length_set, hlen]
    · obtain rfl := Option.some.inj h
      have hnz : next m.slots.length j ≠ z := fun he => h0 (he ▸ hempty)
      exact ⟨⟨hempty, hhole, hlt, hholez, hnz, hlen⟩, by simp only; omega⟩
  have hs := hm.probe_stops k
  have hpz : m.probe k ≠ z := by
    obtain ⟨v, hv⟩ := Option.ne_none_iff_exists'.mp hfound
    obtain ⟨_, q, hq, hslot⟩ := hm.find_eq_some.mp hv
    have hkey := hs.key_eq (hm.home_lt k) hk hm.reach hq (by rw [hslot])
    rintro he
    rw [he, hze] at hkey
    exact hk hkey.symm
  exact Loop.run_ends hround ⟨hze, hs.lt, hs.lt, hpz, hpz, rfl⟩ (off_lt hs.lt hz)

/-- **Every loop of the map is left.** -/
theorem loopsEnd : m.LoopsEnd where
  probe := hm.probe_ends
  shift k hk hfound := by
    rw [shiftBack_eq_run]
    exact ⟨_, hm.shift_ends hk hfound⟩
  rehash old s rest h hs := by
    obtain ⟨acc, heq, -, hw, hlen, hcount, -⟩ := hm.rehash 63 h
    rw [show m.rehashed old = acc from heq]
    have hload := hm.load
    have hall := hm.count_eq
    rw [h, List.countP_append, List.countP_cons_of_pos (by simpa using hs)] at hall
    refine ⟨?_, hw.probe_ends s.key⟩
    rw [hlen, hcount]
    omega
  nesting d k v := by
    simp only [insertAux, grow_eq hm]

end WF

/-! ### One operation -/

section step

variable {m : IdMap V} {k : OrderId} {v : V}

/-- An `insert` of a present key finds it, if need be in a table of twice the size. -/
theorem insert_present (hm : m.WF) (hfound : m.find k ≠ none) :
    (m.insert k v).1.WF ∧ (m.insert k v).2 = false ∧ (m.insert k v).1.count = m.count ∧
      ∀ s, (m.insert k v).1.Stored s ↔ m.Stored s := by
  have hplace : ∀ m' : IdMap V, m'.WF → (∀ s, m'.Stored s ↔ m.Stored s) →
      m'.place k v = (m', false) := by
    intro m' hm' hstored
    obtain ⟨w, hw⟩ := Option.ne_none_iff_exists'.mp hfound
    have hw' := hm'.find_eq_some.mpr ((hstored _).mpr (hm.find_eq_some.mp hw))
    unfold find at hw'
    split_ifs at hw' with h0
    rw [place, if_neg h0]
  unfold insert
  rw [insertAux]
  split_ifs with hfull
  · obtain ⟨h1, h2, -, h4⟩ := grow_spec hm 63
    rw [hplace _ h1 h4]
    exact ⟨h1, rfl, h2, h4⟩
  · rw [hplace m hm fun _ => Iff.rfl]
    exact ⟨hm, rfl, rfl, fun _ => Iff.rfl⟩

theorem length_place (m : IdMap V) (k : OrderId) (v : V) :
    (m.place k v).1.slots.length = m.slots.length := by
  unfold place
  split_ifs
  · exact List.length_set
  · rfl

/-- The table doubles where one more key would load it beyond one half. -/
theorem length_insert (hm : m.WF) (k : OrderId) (v : V) : (m.insert k v).1.slots.length =
    if m.slots.length < (m.count + 1) * 2 then m.slots.length * 2 else m.slots.length := by
  rw [insert, insertAux, length_place]
  split_ifs
  · exact (grow_spec hm 63).2.2.1
  · rfl

/-- An `erase` of a key that is not there leaves the table alone. -/
theorem erase_absent (hm : m.WF) (hk : k ≠ 0) (habs : m.find k = none) :
    m.erase k = (m, false) := by
  have hs := hm.probe_stops k
  have hkey : (m.slot (m.probe k)).key ≠ k :=
    (hm.find_eq_none hk).mp habs _ hs.lt
  simp only [erase, if_neg hkey]

end step

/-! ### Whole histories -/

/-- The table stands for the finite map, in at most `2 ^ 63` slots. -/
structure Models (m : IdMap V) (f : Finmap fun _ : OrderId => V) : Prop where
  wf : m.WF
  find : ∀ k, m.find k = f.lookup k
  size : m.count = f.keys.card
  small : m.slots.length ≤ 2 ^ 63

namespace Models

variable {m : IdMap V} {f : Finmap fun _ : OrderId => V} {k : OrderId}

theorem mem_iff (h : Models m f) : k ∈ f ↔ m.find k ≠ none := by
  rw [h.find, ← Finmap.lookup_isSome, Option.isSome_iff_ne_none]

/-- Fewer than `2 ^ 62` keys never need more than `2 ^ 63` slots. -/
theorem small_insert (h : Models m f) (hroom : f.keys.card < 2 ^ 62) (v : V) :
    (m.insert k v).1.slots.length ≤ 2 ^ 63 := by
  obtain ⟨b, -, hb⟩ := h.wf.pow
  have hsize := h.size
  have hsmall := h.small
  rw [length_insert h.wf]
  split_ifs with hfull
  · have hlt : 2 ^ b < 2 ^ 63 := by omega
    have hle : b + 1 ≤ 63 := (Nat.pow_lt_pow_iff_right (by omega)).mp hlt
    rw [hb, ← Nat.pow_succ]
    exact Nat.pow_le_pow_right (by omega) hle
  · exact hsmall

theorem insert_absent (h : Models m f) (hk : k ≠ 0) (hroom : f.keys.card < 2 ^ 62) (hmem : k ∉ f)
    (v : V) : (m.insert k v).2 = true ∧ Models (m.insert k v).1 (f.insert k v) := by
  have habs : m.find k = none := by
    rw [h.find, Finmap.lookup_eq_none]
    exact hmem
  obtain ⟨hw, hnew, hcount, -⟩ := insert_spec (v := v) h.wf hk habs
  refine ⟨hnew, hw, fun k' => ?_, ?_, h.small_insert hroom v⟩
  · rw [find_insert h.wf hk habs]
    split_ifs with he
    · rw [he, Finmap.lookup_insert]
    · rw [Finmap.lookup_insert_of_ne _ he, h.find]
  · have hkeys : (f.insert k v).keys = Insert.insert k f.keys := by
      ext k'
      simp only [Finmap.mem_keys, Finmap.mem_insert, Finset.mem_insert]
    rw [hcount, hkeys, Finset.card_insert_of_notMem (by rwa [Finmap.mem_keys]), h.size]

theorem insert_present (h : Models m f) (hroom : f.keys.card < 2 ^ 62) (hmem : k ∈ f)
    (v : V) : (m.insert k v).2 = false ∧ Models (m.insert k v).1 f := by
  obtain ⟨hw, hold, hcount, hstored⟩ := IdMap.insert_present (v := v) h.wf (h.mem_iff.mp hmem)
  refine ⟨hold, hw, fun k' => ?_, hcount.trans h.size, h.small_insert hroom v⟩
  rw [← h.find]
  apply Option.ext
  intro w
  rw [hw.find_eq_some, hstored, h.wf.find_eq_some]

theorem erase_present (h : Models m f) (hk : k ≠ 0) (hmem : k ∈ f) :
    (m.erase k).2 = true ∧ Models (m.erase k).1 (f.erase k) := by
  have hfound := h.mem_iff.mp hmem
  obtain ⟨hw, hold, hcount, -⟩ := erase_spec h.wf hk hfound
  refine ⟨hold, hw, fun k' => ?_, ?_, (length_erase m k).le.trans h.small⟩
  · rw [find_erase h.wf hk hfound]
    split_ifs with he
    · rw [he, Finmap.lookup_erase]
    · rw [Finmap.lookup_erase_ne he, h.find]
  · have hcard := Finset.card_erase_add_one (Finmap.mem_keys.mpr hmem)
    have hsize := h.size
    rw [Finmap.keys_erase]
    omega

/-- One operation with a nonzero key. -/
theorem step (h : Models m f) {op : MapOp V} (hk : op.key ≠ 0) (hroom : f.keys.card < 2 ^ 62) :
    (m.mapStep op).2 = (finmapStep f op).2 ∧ Models (m.mapStep op).1 (finmapStep f op).1 := by
  cases op with
  | find k => exact ⟨congrArg MapReply.found (h.find k), h⟩
  | insert k v =>
      by_cases hmem : k ∈ f
      · obtain ⟨hans, hmodels⟩ := h.insert_present hroom hmem v
        simp only [mapStep, finmapStep, if_pos hmem]
        exact ⟨congrArg MapReply.done hans, hmodels⟩
      · obtain ⟨hans, hmodels⟩ := h.insert_absent hk hroom hmem v
        simp only [mapStep, finmapStep, if_neg hmem]
        exact ⟨congrArg MapReply.done hans, hmodels⟩
  | erase k =>
      by_cases hmem : k ∈ f
      · obtain ⟨hans, hmodels⟩ := h.erase_present hk hmem
        simp only [mapStep, finmapStep, if_pos hmem]
        exact ⟨congrArg MapReply.done hans, hmodels⟩
      · have habs : m.find k = none := by
          rw [h.find, Finmap.lookup_eq_none]
          exact hmem
        have herase : m.erase k = (m, false) := erase_absent h.wf hk habs
        simp only [mapStep, finmapStep, if_neg hmem]
        rw [herase]
        exact ⟨rfl, h⟩

end Models

theorem new_models {minSlots : ℕ} (h : minSlots ≤ 2 ^ 63) :
    Models (new minSlots : IdMap V) ∅ where
  wf := new_wf h
  find k := by rw [new_find h, Finmap.lookup_empty]
  size := rfl
  small := by
    obtain ⟨b, -, hb, -, hlen⟩ := new_length (V := V) h
    rw [hlen]
    exact Nat.pow_le_pow_right (by omega) hb

/-- The table after a history. -/
def mapRun (minSlots : ℕ) (ops : List (MapOp V)) : IdMap V :=
  Transition.finalState mapStep (new minSlots) ops

/-- What a sound table looks like, slot by slot. -/
structure Sound (m : IdMap V) : Prop where
  slots_pow : ∃ b, 4 ≤ b ∧ b ≤ 63 ∧ m.slots.length = 2 ^ b
  size_eq : m.size = m.slots.countP fun s => decide (s.key ≠ 0)
  load : m.slots.countP (fun s => decide (s.key ≠ 0)) * 2 ≤ m.slots.length
  distinct : ∀ p < m.slots.length, ∀ q < m.slots.length, (m.slot p).key ≠ 0 →
    (m.slot p).key = (m.slot q).key → p = q
  run : ∀ p < m.slots.length, (m.slot p).key ≠ 0 → ∀ q < m.slots.length,
    off m.slots.length (m.home (m.slot p).key) q <
      off m.slots.length (m.home (m.slot p).key) p → (m.slot q).key ≠ 0
  loops : m.LoopsEnd

theorem Models.sound {m : IdMap V} {f : Finmap fun _ : OrderId => V} (h : Models m f) :
    m.Sound where
  slots_pow := by
    obtain ⟨b, hb, hlen⟩ := h.wf.pow
    have hsmall := h.small
    rw [hlen] at hsmall
    exact ⟨b, hb, (Nat.pow_le_pow_iff_right (by omega)).mp hsmall, hlen⟩
  size_eq := h.wf.count_eq
  load := h.wf.count_eq ▸ h.wf.load
  distinct := h.wf.distinct
  run := h.wf.reach
  loops := h.wf.loopsEnd

/-- **The id map is a finite map**, and its table is sound after every operation. -/
theorem finiteMap_run {minSlots : ℕ} (hmin : minSlots ≤ 2 ^ 63) (ops : List (MapOp V))
    (hkeys : ∀ op ∈ ops, op.key ≠ 0)
    (hroom : ∀ pre ∈ ops.inits, (Transition.finalState finmapStep ∅ pre).keys.card < 2 ^ 62) :
    Transition.outputs mapStep (new minSlots) ops = Transition.outputs finmapStep ∅ ops ∧
      ∀ pre ∈ ops.inits,
        (mapRun minSlots pre).size = (Transition.finalState finmapStep ∅ pre).keys.card ∧
          (mapRun minSlots pre).Sound := by
  have hrun : ∀ is, is <+: ops →
      Transition.outputs finmapStep ∅ is = Transition.outputs mapStep (new minSlots) is ∧
        Models (mapRun minSlots is) (Transition.finalState finmapStep ∅ is) := by
    intro is his
    refine Transition.outputs_eq_of_sim
      (P := fun f op => op.key ≠ 0 ∧ f.keys.card < 2 ^ 62)
      (R := fun f m => Models m f) (fun f m op h hP => ?_) (new_models hmin)
      (Transition.along_of_split fun pre op post he => ⟨?_, ?_⟩)
    · obtain ⟨hans, hmodels⟩ := h.step hP.1 hP.2
      exact ⟨hans.symm, hmodels⟩
    · refine hkeys op (his.subset ?_)
      rw [he]
      exact List.mem_append_right _ List.mem_cons_self
    · refine hroom pre ((List.mem_inits _ _).mpr (List.IsPrefix.trans ?_ his))
      rw [he]
      exact List.prefix_append _ _
  refine ⟨(hrun ops List.prefix_rfl).1.symm, fun pre hpre => ?_⟩
  obtain ⟨-, hmodels⟩ := hrun pre ((List.mem_inits _ _).mp hpre)
  exact ⟨hmodels.size, hmodels.sound⟩

/-- A key twice, a key erased out of its run, and a key that is gone. -/
theorem finiteMap_run_small :
    Transition.outputs mapStep (new 4 : IdMap ℕ)
      [.insert 5 1, .insert 13 2, .insert 5 9, .find 5, .erase 5, .find 13, .erase 5] =
      [.done true, .done true, .done false, .found (some 1), .done true, .found (some 2),
        .done false] := by
  refine (finiteMap_run (by decide) _ (by decide) ?_).1.trans (by decide +kernel)
  decide +kernel

end IdMap

end Lob
