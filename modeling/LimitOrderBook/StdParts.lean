import LimitOrderBook.OrdMap
import LimitOrderBook.Store

/-! # The parts of the earlier engines

The engines before the final one take parts from the standard library: `TreeLadder` is the
`std::map<Price, Level>` per side (`v1` to `v4`), `HashIndex` the
`std::unordered_map<OrderId, Order*>` (`v1` to `v5`), whose iteration order no engine looks at,
and `Heap` the free store behind `new` and `delete` (`v1`), which hands out an address no live
object has.  Each is a lawful part. -/

namespace Lob

/-! ### Levels in a search tree -/

/-- One side of the book, ordered best price first. -/
structure TreeLadder (A : Type) where
  side : Side
  map : OrdMap (better side) (Level A)

namespace TreeLadder

variable {A : Type}

def new (s : Side) : TreeLadder A := ⟨s, OrdMap.empty⟩

/-- `link` is `side_book[px]`, which creates the level on its first order, and the assignment
of its price. -/
instance : Ladder (TreeLadder A) A where
  inBand _ px := decide (0 < px)
  best? _ l := l.map.firstKey?
  worse? _ l px := l.map.after? px
  level l px := (l.map.find? px).getD {}
  setLevel l px v := { l with map := l.map.alter px (fun _ => v) }
  link _ l px f := { l with map := l.map.alter px (fun o => f { o.getD {} with price := px }) }
  emptied _ l it _ := { l with map := l.map.erase it }

def Occ (l : TreeLadder A) (p : Int) : Prop := (l.map.find? p).isSome = true

structure WF (s : Side) (l : TreeLadder A) : Prop where
  side : l.side = s
  price : ∀ p v, l.map.find? p = some v → v.price = p ∧ 0 < p

theorem new_wf (s : Side) : (new s : TreeLadder A).WF s :=
  ⟨rfl, fun _ _ h => by cases h⟩

theorem new_not_occ (s : Side) (p : Int) : ¬ (new s : TreeLadder A).Occ p := by
  simp [Occ, new]

theorem alter_wf {s : Side} {l : TreeLadder A} (h : l.WF s) {p : Int} {f : Option (Level A) → Level A}
    (hp : 0 < p) (hf : (f (l.map.find? p)).price = p) :
    WF s { l with map := l.map.alter p f } where
  side := h.side
  price q v hq := by
    have hq' : (l.map.alter p f).find? q = some v := hq
    rw [OrdMap.find?_alter] at hq'
    split_ifs at hq' with he
    · cases hq'
      exact ⟨by rw [he]; exact hf, he ▸ hp⟩
    · exact h.price q v hq'

theorem occ_alter {l : TreeLadder A} {p : Int} {f : Option (Level A) → Level A} (q : Int) :
    Occ { l with map := l.map.alter p f } q ↔ q = p ∨ l.Occ q := by
  simp only [Occ, OrdMap.find?_alter]
  split_ifs with he <;> simp [he]

theorem level_alter {l : TreeLadder A} {p : Int} {f : Option (Level A) → Level A} (q : Int) :
    Ladder.level { l with map := l.map.alter p f } q =
      if q = p then f (l.map.find? p) else Ladder.level l q := by
  simp only [Ladder.level, OrdMap.find?_alter]
  split_ifs with he <;> rfl

theorem WF.pos_of_occ {s : Side} {l : TreeLadder A} (h : l.WF s) {p : Int} (ho : l.Occ p) :
    0 < p := by
  obtain ⟨v, hv⟩ := Option.isSome_iff_exists.mp ho
  exact (h.price p v hv).2

instance : LawfulLadder (TreeLadder A) A where
  WF := WF
  occ := Occ
  inBand_of_occ h ho := decide_eq_true (h.pos_of_occ ho)
  best?_none _ hb p ho := by
    rw [Occ, OrdMap.firstKey?_eq_none hb p] at ho
    cases ho
  best?_some h hb := by
    have hs := h.side
    subst hs
    exact OrdMap.firstKey?_eq_some hb
  worse?_none h _ hw q hq := by
    have := OrdMap.after?_eq_none hw hq
    rw [h.side] at this
    exact this
  worse?_some h _ hw := by
    have hs := h.side
    subst hs
    exact OrdMap.after?_eq_some hw
  blank {s l p} _ _ hn := by
    have hnone : l.map.find? p = none := by simpa [Occ] using hn
    show Level.Blank ((l.map.find? p).getD {})
    rw [hnone]
    exact ⟨rfl, rfl, rfl, rfl⟩
  setLevel_wf h ho hv := alter_wf h (h.pos_of_occ ho) hv
  setLevel_occ {_ _ p _} _ ho q := by
    refine (occ_alter q).trans ⟨?_, Or.inr⟩
    rintro (rfl | hq)
    · exact ho
    · exact hq
  setLevel_inBand _ _ _ := rfl
  level_setLevel _ _ q _ := level_alter q
  link_wf h hp _ hf := alter_wf h (of_decide_eq_true hp) (hf _)
  link_occ _ _ _ q := occ_alter q
  link_inBand _ _ := rfl
  level_link _ _ q _ := level_alter q
  emptied_wf {s l p} h _ _ := by
    refine ⟨h.side, fun q v hq => ?_⟩
    have hq' : (l.map.erase p).find? q = some v := hq
    rw [OrdMap.find?_erase] at hq'
    split_ifs at hq'
    exact h.price q v hq'
  emptied_occ {s l p} _ _ q := by
    show ((l.map.erase p).find? q).isSome = true ↔ (l.map.find? q).isSome = true ∧ q ≠ p
    rw [OrdMap.find?_erase]
    split_ifs with he <;> simp [he]
  emptied_inBand _ _ := rfl
  level_emptied {s l p} _ q hq := by
    show ((l.map.erase p).find? q).getD {} = (l.map.find? q).getD {}
    rw [OrdMap.find?_erase, if_neg hq]
  price_of_occ {s l p} h ho := by
    obtain ⟨v, hv⟩ := Option.isSome_iff_exists.mp ho
    show ((l.map.find? p).getD {}).price = p
    rw [hv]
    exact (h.price p v hv).1

end TreeLadder

/-! ### Orders by id -/

instance uint64_lt : IsStrictTotalOrder UInt64 (· < ·) where
  irrefl a := by rw [UInt64.lt_iff_toNat_lt]; omega
  trans a b c h₁ h₂ := by rw [UInt64.lt_iff_toNat_lt] at *; omega
  trichotomous a b h₁ h₂ := by
    rw [UInt64.lt_iff_toNat_lt] at h₁ h₂
    exact UInt64.toNat_inj.mp (by omega)

/-- A map from 64-bit keys. -/
abbrev HashIndex (A : Type) := OrdMap (fun a b : UInt64 => a < b) A

namespace HashIndex

variable {A : Type}

instance : Index (HashIndex A) A where
  find := OrdMap.find?
  insert i k a := i.alter k (fun _ => a)
  erase := OrdMap.erase
  size := OrdMap.size

instance : LawfulIndex (HashIndex A) A where
  WF _ := True
  Key _ := True
  key_of_ne _ := trivial
  insert_wf _ _ _ _ := trivial
  find_insert _ _ _ _ k' := OrdMap.find?_alter _ _ k' _
  size_insert _ _ hk _ := OrdMap.size_alter hk _
  erase_wf _ _ _ := trivial
  find_erase _ _ _ k' := OrdMap.find?_erase _ _ k'
  size_erase _ _ hk := OrdMap.size_erase hk

end HashIndex

/-! ### The free store -/

/-- The live objects by address, and the first address not handed out yet. -/
structure Heap (T : Type) where
  cells : ℕ → Option T := fun _ => none
  top : ℕ := 0

namespace Heap

variable {T : Type}

def set (h : Heap T) (a : ℕ) (c : Option T) : Heap T :=
  { h with cells := fun b => if b = a then c else h.cells b }

instance [Inhabited T] : Allocator (Heap T) ℕ T where
  deref h a := (h.cells a).getD default
  write h a v := h.set a (some v)
  create h v := (h.top, { h.set h.top (some v) with top := h.top + 1 })
  destroy h a := h.set a none

def WF (h : Heap T) : Prop := ∀ a, h.top ≤ a → h.cells a = none

def Live (h : Heap T) (a : ℕ) : Prop := h.cells a ≠ none

theorem WF.lt_of_live {h : Heap T} (hw : h.WF) {a : ℕ} (ha : h.Live a) : a < h.top := by
  by_contra hlt
  exact ha (hw a (by omega))

instance [Inhabited T] : LawfulAllocator (Heap T) ℕ T where
  WF := WF
  Live := Live
  create_fresh {h} hw _ hl := absurd (hw.lt_of_live hl) (Nat.lt_irrefl h.top)
  create_wf {h} hw v a ha := by
    have ha' : h.top + 1 ≤ a := ha
    show (if a = h.top then some v else h.cells a) = none
    rw [if_neg (by omega)]
    exact hw a (by omega)
  create_live {h} _ v a := by
    show (if a = h.top then some v else h.cells a) ≠ none ↔ a = h.top ∨ h.cells a ≠ none
    split_ifs with he <;> simp [he]
  deref_create_self {h} _ v := by simp [Allocator.deref, Allocator.create, set]
  deref_create {h} hw v a ha := by
    have hne : a ≠ h.top := Nat.ne_of_lt (hw.lt_of_live ha)
    simp [Allocator.deref, Allocator.create, set, hne]
  destroy_wf {h a} hw _ b hb := by
    show (if b = a then none else h.cells b) = none
    split_ifs
    · rfl
    · exact hw b hb
  destroy_live {h a} _ _ b := by
    show (if b = a then none else h.cells b) ≠ none ↔ h.cells b ≠ none ∧ b ≠ a
    split_ifs with he <;> simp [he]
  deref_destroy _ _ b hb := by simp [Allocator.deref, Allocator.destroy, set, hb]
  write_wf {h a} hw ha v b hb := by
    have hb' : h.top ≤ b := hb
    have hlt := hw.lt_of_live ha
    show (if b = a then some v else h.cells b) = none
    rw [if_neg (by omega)]
    exact hw b hb'
  write_live {h a} _ ha v b := by
    show (if b = a then some v else h.cells b) ≠ none ↔ h.cells b ≠ none
    split_ifs with he
    · subst he
      exact iff_of_true (by simp) ha
    · rfl
  deref_write_self v := by simp [Allocator.deref, Allocator.write, set]
  deref_write v hb := by simp [Allocator.deref, Allocator.write, set, hb]

end Heap

end Lob
