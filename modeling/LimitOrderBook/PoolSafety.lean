import Mathlib.Data.List.Perm.Subperm
import Mathlib.Tactic.Ring
import LimitOrderBook.Pool
import LimitOrderBook.Transition

/-! # What the pool hands out

A run of `create` and `destroy` on the pool of `include/lob/pool.hpp`, with the list of the
objects that are live.  Storage comes from `::operator new`, which throws when the process would
hold more than `memory` bytes; the pool is then as it was.

`Safe` says that live objects are disjoint slots inside slabs, off the free list and within
`capacity()`, and that a slab is added only when no slot is left.  The invariant behind it is
`Tight`: the slabs double, and the slots before the cursor are exactly the live and the free ones.

The byte size of a slab is a 64-bit product.  Every run is safe if and only if that product is,
for the first slab, a positive multiple of the object size (`safe_iff`): a capacity of `0` makes
every later slab empty too, and so does one whose byte size wraps to `0`. -/

namespace Lob

namespace Pool

variable {T : Type} {sz : ℕ}

/-- A slot wholly inside a slab, at a multiple of the object size. -/
def Slot (p : Pool T sz) (a : Addr) : Prop :=
  sz ∣ a.off ∧ ∃ bytes, p.slabs[a.slab]? = some bytes ∧ a.off + sz ≤ bytes

/-- The `sz` bytes at two addresses do not overlap. -/
def Apart (sz : ℕ) (a b : Addr) : Prop :=
  a.slab ≠ b.slab ∨ a.off + sz ≤ b.off ∨ b.off + sz ≤ a.off

/-! ### Runs -/

/-- One request. -/
inductive PoolOp (T : Type) where
  | create (v : T)
  | destroy (a : Addr)

/-- A pool with its live objects. -/
structure Held (T : Type) (sz : ℕ) where
  pool : Pool T sz
  live : List Addr := []

/-- One request, and the pointer that `create` returns. -/
def poolStep (memory : ℕ) (h : Held T sz) : PoolOp T → Held T sz × Option Addr
  | .create v =>
      let (a, p) := h.pool.create v
      if p.slabs.sum ≤ memory then (⟨p, a :: h.live⟩, some a) else (h, none)
  | .destroy a => (⟨h.pool.destroy a, h.live.erase a⟩, none)

/-- `destroy` is called on live objects. -/
def OnLive (h : Held T sz) : PoolOp T → Prop
  | .create _ => True
  | .destroy a => a ∈ h.live

/-- A pool as constructed. -/
def fresh (cap : ℕ) : Held T sz := { pool := new cap }

/-- The pool after a run. -/
def poolRun (memory cap : ℕ) (ops : List (PoolOp T)) : Held T sz :=
  Transition.finalState (poolStep memory) (fresh cap) ops

theorem poolStep_create {memory : ℕ} {h : Held T sz} {v : T}
    (hroom : (h.pool.create v).2.slabs.sum ≤ memory) : (poolStep memory h (.create v)).1 =
      ⟨(h.pool.create v).2, (h.pool.create v).1 :: h.live⟩ := by
  simp only [poolStep, if_pos hroom]

theorem poolRun_snoc (memory cap : ℕ) (ops : List (PoolOp T)) (op : PoolOp T) :
    (poolRun memory cap (ops ++ [op]) : Held T sz) =
      (poolStep memory (poolRun memory cap ops) op).1 :=
  Transition.finalState_append _ _ _

/-- **Nothing aliased, nothing out of the slabs.** -/
structure Held.Safe (h : Held T sz) : Prop where
  inside : ∀ a ∈ h.live, h.pool.Slot a
  apart : h.live.Pairwise (Apart sz)
  not_free : ∃ free, FreeChain h.pool.mem h.pool.free free ∧ ∀ a ∈ h.live, a ∉ free
  count : h.live.length ≤ h.pool.capacity
  grows : ∀ v, (h.pool.create v).2.slabs ≠ h.pool.slabs → ∀ a, h.pool.Slot a → a ∈ h.live

/-! ### The invariant -/

/-- The slots of the first slab. -/
def firstSlots (sz cap : ℕ) : ℕ := cap * sz % 2 ^ 64 / sz

/-- Slabs `0` to `n` double, and what was handed out is live or free. -/
structure Tight (cap n : ℕ) (p : Pool T sz) : Prop where
  slabs : p.slabs = (List.range (n + 1)).map fun j => 2 ^ j * (firstSlots sz cap * sz)
  cursor : ∃ i ≤ 2 ^ n * firstSlots sz cap, p.cursor = ⟨n, i * sz⟩
  slabEnd : p.slabEnd = ⟨n, 2 ^ n * firstSlots sz cap * sz⟩
  last : p.lastSlabElems = 2 ^ n * cap % 2 ^ 64
  capacity : p.capacity = (2 ^ (n + 1) - 1) * cap % 2 ^ 64
  used : ∃ free, free.Nodup ∧ FreeChain p.mem p.free free ∧
    ∀ a, p.Live a ∨ a ∈ free ↔ p.Slot a ∧ Before a p.cursor

/-- No slot is left: the next `create` adds a slab. -/
def Full (p : Pool T sz) : Prop := p.free = none ∧ p.cursor = p.slabEnd

instance (p : Pool T sz) : Decidable p.Full := inferInstanceAs (Decidable (_ ∧ _))

/-- The pool with one more slab, twice the size of the last. -/
def doubled (p : Pool T sz) : Pool T sz := p.addSlab (p.lastSlabElems * 2 % 2 ^ 64)

theorem rawSlot_of_bump {p : Pool T sz} (hfree : p.free = none) (hroom : ¬ p.Full) :
    p.rawSlot = (p.cursor, { p with cursor := ⟨p.cursor.slab, p.cursor.off + sz⟩ }) := by
  have hcur : p.cursor ≠ p.slabEnd := fun h => hroom ⟨hfree, h⟩
  simp only [rawSlot, hfree, if_neg hcur]

theorem rawSlot_of_full {p : Pool T sz} (h : p.Full) : p.rawSlot =
    (p.doubled.cursor,
      { p.doubled with cursor := ⟨p.doubled.cursor.slab, p.doubled.cursor.off + sz⟩ }) := by
  simp only [rawSlot, h.1, if_pos h.2, doubled]

theorem create_slabs (p : Pool T sz) (v : T) : (p.create v).2.slabs =
    if p.Full then p.doubled.slabs else p.slabs := by
  show p.rawSlot.2.slabs = _
  split_ifs with hfull
  · rw [rawSlot_of_full hfull]
  · cases hfree : p.free with
    | none => rw [rawSlot_of_bump hfree hfull]
    | some a => simp only [rawSlot, hfree]

/-- While there is a slot left, `create` leaves the slabs as they are. -/
theorem create_sizes {p : Pool T sz} (hroom : ¬ p.Full) (v : T) :
    (p.create v).2.slabEnd = p.slabEnd ∧ (p.create v).2.lastSlabElems = p.lastSlabElems ∧
      (p.create v).2.capacity = p.capacity := by
  show p.rawSlot.2.slabEnd = _ ∧ p.rawSlot.2.lastSlabElems = _ ∧ p.rawSlot.2.capacity = _
  cases hfree : p.free with
  | none =>
      rw [rawSlot_of_bump hfree hroom]
      exact ⟨rfl, rfl, rfl⟩
  | some a =>
      simp only [rawSlot, hfree]
      exact ⟨trivial, trivial, trivial⟩

/-- `create` on a full pool is `create` on the pool with one more slab. -/
theorem create_of_full {p : Pool T sz} (hfull : p.Full) (hroom : ¬ p.doubled.Full) (v : T) :
    p.create v = p.doubled.create v := by
  have hfree : p.doubled.free = none := hfull.1
  unfold create
  rw [rawSlot_of_full hfull, rawSlot_of_bump hfree hroom]

namespace Tight

variable {cap n : ℕ} {p : Pool T sz}

theorem slot_iff (h : p.Tight cap n) {a : Addr} : p.Slot a ↔
    sz ∣ a.off ∧ a.slab ≤ n ∧ a.off + sz ≤ 2 ^ a.slab * (firstSlots sz cap * sz) := by
  unfold Slot
  rw [h.slabs, List.getElem?_map]
  refine and_congr_right fun _ => ?_
  by_cases ha : a.slab < n + 1
  · rw [List.getElem?_range ha]
    simp only [Option.map_some, Option.some.injEq, exists_eq_left']
    exact ⟨fun hle => ⟨by omega, hle⟩, fun hle => hle.2⟩
  · rw [List.getElem?_eq_none (by rw [List.length_range]; omega)]
    simp only [Option.map_none, reduceCtorEq, false_and, exists_false, false_iff]
    omega

theorem slot_congr {p' : Pool T sz} (h : p'.slabs = p.slabs) (a : Addr) :
    p'.Slot a ↔ p.Slot a := by
  unfold Slot
  rw [h]

/-- When no slot is left, every slot holds a live object. -/
theorem live_of_full (h : p.Tight cap n) (hsz : 0 < sz) (hfull : p.Full) {a : Addr}
    (ha : p.Slot a) : p.Live a := by
  obtain ⟨free, -, hchain, hused⟩ := h.used
  have hbefore : Before a p.cursor := by
    obtain ⟨-, hslab, hoff⟩ := h.slot_iff.mp ha
    rw [hfull.2, h.slabEnd]
    rcases Nat.lt_or_eq_of_le hslab with hlt | heq
    · exact Or.inl hlt
    · refine Or.inr ⟨heq, ?_⟩
      rw [heq, ← Nat.mul_assoc] at hoff
      simp only
      omega
  rw [hfull.1] at hchain
  obtain rfl := hchain.eq_nil
  exact ((hused a).mpr ⟨ha, hbefore⟩).resolve_right List.not_mem_nil

/-- The slots before a cursor one slot further on. -/
theorem before_next_iff (h : p.Tight cap n) (hsz : 0 < sz) {i : ℕ}
    (hi : i < 2 ^ n * firstSlots sz cap) (b : Addr) :
    p.Slot b ∧ Before b ⟨n, (i + 1) * sz⟩ ↔
      b = ⟨n, i * sz⟩ ∨ p.Slot b ∧ Before b ⟨n, i * sz⟩ := by
  constructor
  · rintro ⟨hslot, hbefore⟩
    obtain ⟨⟨j, hj⟩, -, -⟩ := h.slot_iff.mp hslot
    rcases hbefore with hlt | ⟨heq, hlt⟩
    · exact Or.inr ⟨hslot, Or.inl hlt⟩
    · simp only at heq hlt
      rw [hj, Nat.mul_comm sz j] at hlt
      have hle : j < i + 1 := Nat.lt_of_mul_lt_mul_right hlt
      rcases Nat.lt_or_eq_of_le (Nat.le_of_lt_succ hle) with hji | rfl
      · refine Or.inr ⟨hslot, Or.inr ⟨heq, ?_⟩⟩
        rw [hj, Nat.mul_comm sz j]
        exact Nat.mul_lt_mul_of_pos_right hji hsz
      · exact Or.inl (by rw [← heq, Nat.mul_comm j sz, ← hj])
  · rintro (rfl | ⟨hslot, hbefore⟩)
    · refine ⟨h.slot_iff.mpr ⟨Nat.dvd_mul_left sz i, le_refl n, ?_⟩, Or.inr ⟨rfl, ?_⟩⟩
      · have hle := Nat.mul_le_mul_right sz hi
        rw [Nat.succ_mul] at hle
        rw [← Nat.mul_assoc]
        exact hle
      · exact Nat.mul_lt_mul_of_pos_right (Nat.lt_add_one i) hsz
    · refine ⟨hslot, ?_⟩
      have hlt := Nat.mul_lt_mul_of_pos_right (Nat.lt_add_one i) hsz
      unfold Before at hbefore ⊢
      simp only at hbefore ⊢
      omega

/-- What is to be shown of `create` while there is a slot left: where the cursor is, and what is
free. -/
theorem created (h : p.Tight cap n) (hwf : p.WF) (hsz : 0 < sz) (hroom : ¬ p.Full) {v : T}
    (hcursor : ∃ i ≤ 2 ^ n * firstSlots sz cap, (p.create v).2.cursor = ⟨n, i * sz⟩)
    {free : List Addr} (hnd : free.Nodup) (hchain : FreeChain p.mem (p.create v).2.free free)
    (hnot : (p.create v).1 ∉ free)
    (hused : ∀ b, (b = (p.create v).1 ∨ p.Live b) ∨ b ∈ free ↔
      p.Slot b ∧ Before b (p.create v).2.cursor) : (p.create v).2.Tight cap n := by
  obtain ⟨hend, hlast, hcap⟩ := create_sizes hroom v
  have hslabs : (p.create v).2.slabs = p.slabs := by rw [create_slabs, if_neg hroom]
  refine ⟨hslabs.trans h.slabs, hcursor, hend.trans h.slabEnd, hlast.trans h.last,
    hcap.trans h.capacity, free, hnd, hchain.congr fun b hb => ?_, fun b => ?_⟩
  · have hmem : p.rawSlot.2.mem = p.mem := (hwf.rawSlot hsz).2.1
    have hne : b ≠ p.rawSlot.1 := fun he => hnot (he ▸ hb)
    show (if b = p.rawSlot.1 then Cell.obj v else p.rawSlot.2.mem b) = p.mem b
    rw [if_neg hne, hmem]
  · rw [create_live hwf hsz v, slot_congr hslabs]
    exact hused b

/-- `create` takes the head of the free list. -/
theorem create_free (h : p.Tight cap n) (hwf : p.WF) (hsz : 0 < sz) {a : Addr}
    (hfree : p.free = some a) (v : T) : (p.create v).2.Tight cap n ∧ p.Slot (p.create v).1 := by
  have hroom : ¬ p.Full := by
    rintro ⟨hnone, -⟩
    rw [hfree] at hnone
    cases hnone
  obtain ⟨free, hnd, hchain, hused⟩ := h.used
  rw [hfree] at hchain
  obtain ⟨next, rest, rfl, hnext, hrest⟩ := hchain.uncons
  obtain ⟨hnot, hnd'⟩ := List.nodup_cons.mp hnd
  have hraw := rawSlot_of_free hfree hnext
  have haddr : (p.create v).1 = a := congrArg Prod.fst hraw
  have hnext' : (p.create v).2.free = next := by
    show p.rawSlot.2.free = next
    rw [hraw]
  have hcursor : (p.create v).2.cursor = p.cursor := by
    show p.rawSlot.2.cursor = p.cursor
    rw [hraw]
  constructor
  · refine h.created hwf hsz hroom (by rw [hcursor]; exact h.cursor) hnd'
      (by rw [hnext']; exact hrest) (by rw [haddr]; exact hnot) fun b => ?_
    rw [hcursor, ← hused, List.mem_cons, haddr]
    tauto
  · rw [haddr]
    exact ((hused a).mp (Or.inr List.mem_cons_self)).1

/-- `create` moves the cursor on. -/
theorem create_bump (h : p.Tight cap n) (hwf : p.WF) (hsz : 0 < sz) (hfree : p.free = none)
    (hroom : ¬ p.Full) (v : T) : (p.create v).2.Tight cap n ∧ p.Slot (p.create v).1 := by
  obtain ⟨i, hi, hcur⟩ := h.cursor
  obtain ⟨free, -, hchain, hused⟩ := h.used
  rw [hfree] at hchain
  obtain rfl := hchain.eq_nil
  have hraw := rawSlot_of_bump hfree hroom
  have hlt : i < 2 ^ n * firstSlots sz cap := by
    refine Nat.lt_of_le_of_ne hi fun he => hroom ⟨hfree, ?_⟩
    rw [hcur, h.slabEnd, he]
  have haddr : (p.create v).1 = ⟨n, i * sz⟩ := (congrArg Prod.fst hraw).trans hcur
  have hcursor : (p.create v).2.cursor = ⟨n, (i + 1) * sz⟩ := by
    show p.rawSlot.2.cursor = _
    rw [hraw, hcur, Nat.succ_mul]
  have hnone : (p.create v).2.free = none := by
    show p.rawSlot.2.free = none
    rw [hraw]
    exact hfree
  constructor
  · refine h.created hwf hsz hroom ⟨i + 1, hlt, hcursor⟩ List.nodup_nil hnone List.not_mem_nil
      fun b => ?_
    rw [hcursor, h.before_next_iff hsz hlt, haddr, ← hcur, ← hused b]
    simp only [List.not_mem_nil, or_false]
  · rw [haddr]
    exact ((h.before_next_iff hsz hlt _).mpr (Or.inl rfl)).1

/-- What `create` does while there is a slot left. -/
theorem create (h : p.Tight cap n) (hwf : p.WF) (hsz : 0 < sz) (hroom : ¬ p.Full) (v : T) :
    (p.create v).2.Tight cap n ∧ p.Slot (p.create v).1 := by
  cases hfree : p.free with
  | some a => exact h.create_free hwf hsz hfree v
  | none => exact h.create_bump hwf hsz hfree hroom v

theorem destroy (h : p.Tight cap n) {a : Addr} (ha : p.Live a) :
    (p.destroy a).Tight cap n := by
  obtain ⟨free, hnd, hchain, hused⟩ := h.used
  obtain ⟨v, hv⟩ := ha
  have hnot : a ∉ free := by
    intro hmem
    obtain ⟨next, hnext⟩ := hchain.node a hmem
    rw [hv] at hnext
    cases hnext
  have hslot : ∀ b, (p.destroy a).Slot b ↔ p.Slot b := fun b => slot_congr rfl b
  refine ⟨h.slabs, h.cursor, h.slabEnd, h.last, h.capacity, a :: free,
    List.nodup_cons.mpr ⟨hnot, hnd⟩, ⟨rfl, p.free, by simp [Pool.destroy, setCell], ?_⟩,
    fun b => ?_⟩
  · refine hchain.congr fun b hb => ?_
    have hne : b ≠ a := fun he => hnot (he ▸ hb)
    simp [Pool.destroy, setCell, hne]
  · rw [destroy_live, hslot]
    show _ ↔ p.Slot b ∧ Before b p.cursor
    rw [← hused, List.mem_cons]
    by_cases he : b = a
    · subst he
      simp only [true_or, or_true, true_iff]
      exact Or.inl ⟨v, hv⟩
    · simp [he]

theorem write (h : p.Tight cap n) {a : Addr} (ha : p.Live a) (v : T) :
    (p.write a v).Tight cap n := by
  obtain ⟨free, hnd, hchain, hused⟩ := h.used
  refine ⟨h.slabs, h.cursor, h.slabEnd, h.last, h.capacity, free, hnd, ?_, fun b => ?_⟩
  · refine hchain.congr fun b hb => ?_
    have hne : b ≠ a := by
      rintro rfl
      obtain ⟨next, hnext⟩ := hchain.node b hb
      obtain ⟨w, hw⟩ := ha
      rw [hw] at hnext
      cases hnext
    simp [Pool.write, setCell, hne]
  · rw [write_live ha]
    exact hused b

/-- The slots of a pool that has just got its next slab, before the cursor at the slab's start. -/
theorem slot_before_next (h : p.Tight cap n) {p' : Pool T sz}
    (hslabs : p'.slabs = (List.range (n + 1 + 1)).map fun j => 2 ^ j * (firstSlots sz cap * sz))
    (a : Addr) : p'.Slot a ∧ Before a ⟨n + 1, 0⟩ ↔ p.Slot a := by
  rw [h.slot_iff, Slot, hslabs, List.getElem?_map]
  unfold Before
  constructor
  · rintro ⟨⟨hdvd, bytes, hget, hle⟩, hbefore⟩
    have hlt : a.slab < n + 1 := by
      simp only at hbefore
      omega
    rw [List.getElem?_range (by omega)] at hget
    obtain rfl := Option.some.inj hget
    exact ⟨hdvd, by omega, hle⟩
  · rintro ⟨hdvd, hle, hoff⟩
    refine ⟨⟨hdvd, _, ?_, hoff⟩, Or.inl (by simp only; omega)⟩
    rw [List.getElem?_range (by omega)]
    rfl

/-- A full pool adds a slab of twice the size, as long as that size fits 64 bits. -/
theorem doubled (h : p.Tight cap n) (hsz : 0 < sz) (hdvd : sz ∣ cap * sz % 2 ^ 64) (hfull : p.Full)
    (hfit : 2 ^ (n + 1) * (firstSlots sz cap * sz) < 2 ^ 64) : p.doubled.Tight cap (n + 1) := by
  have hfirst : firstSlots sz cap * sz = cap * sz % 2 ^ 64 := Nat.div_mul_cancel hdvd
  have helems : p.lastSlabElems * 2 % 2 ^ 64 = 2 ^ (n + 1) * cap % 2 ^ 64 := by
    rw [h.last, Nat.mod_mul_mod, Nat.pow_succ]
    congr 1
    ring
  have hbytes : p.lastSlabElems * 2 % 2 ^ 64 * sz % 2 ^ 64 =
      2 ^ (n + 1) * (firstSlots sz cap * sz) := by
    rw [helems, Nat.mod_mul_mod, Nat.mul_assoc, Nat.mul_mod, ← hfirst, Nat.mod_mul_mod,
      Nat.mod_eq_of_lt hfit]
  obtain ⟨free, -, hchain, hused⟩ := h.used
  rw [hfull.1] at hchain
  obtain rfl := hchain.eq_nil
  have hlen : p.slabs.length = n + 1 := by rw [h.slabs, List.length_map, List.length_range]
  have hslabs : p.doubled.slabs =
      (List.range (n + 1 + 1)).map fun j => 2 ^ j * (firstSlots sz cap * sz) := by
    rw [List.range_succ, List.map_append, ← h.slabs]
    show p.slabs ++ [p.lastSlabElems * 2 % 2 ^ 64 * sz % 2 ^ 64] = _
    rw [hbytes]
    rfl
  refine ⟨hslabs, ⟨0, Nat.zero_le _, ?_⟩, ?_, helems, ?_, [], List.nodup_nil, hfull.1, fun a => ?_⟩
  · show (⟨p.slabs.length, 0⟩ : Addr) = _
    rw [hlen, Nat.zero_mul]
  · show (⟨p.slabs.length, p.lastSlabElems * 2 % 2 ^ 64 * sz % 2 ^ 64⟩ : Addr) = _
    rw [hlen, hbytes, Nat.mul_assoc]
  · show (p.capacity + p.lastSlabElems * 2 % 2 ^ 64) % 2 ^ 64 = _
    have hone : 1 ≤ 2 ^ (n + 1) := Nat.one_le_two_pow
    have hsum : 2 ^ (n + 1) - 1 + 2 ^ (n + 1) = 2 ^ (n + 1 + 1) - 1 := by
      rw [Nat.pow_succ 2 (n + 1)]
      omega
    rw [h.capacity, helems, ← Nat.add_mod, ← Nat.add_mul, hsum]
  · have hlive : p.doubled.Live a ↔ p.Slot a := by
      constructor
      · intro ha
        exact ((hused a).mp (Or.inl ha)).1
      · intro ha
        exact h.live_of_full hsz hfull ha
    have hcursor : p.doubled.cursor = ⟨n + 1, 0⟩ := by
      show (⟨p.slabs.length, 0⟩ : Addr) = _
      rw [hlen]
    rw [hcursor, h.slot_before_next hslabs, hlive]
    simp only [List.not_mem_nil, or_false]

theorem doubled_not_full (h : p.doubled.Tight cap (n + 1)) (hsz : 0 < sz)
    (hpos : 0 < firstSlots sz cap) : ¬ p.doubled.Full := by
  rintro ⟨-, heq⟩
  have hoff : 0 = 2 ^ (n + 1) * firstSlots sz cap * sz := by
    rw [h.slabEnd] at heq
    exact (Addr.mk.inj heq).2
  have hsize : 0 < 2 ^ (n + 1) * firstSlots sz cap * sz :=
    Nat.mul_pos (Nat.mul_pos (Nat.two_pow_pos (n + 1)) hpos) hsz
  omega

end Tight

theorem new_tight {cap : ℕ} (hcap : cap < 2 ^ 64) (hdvd : sz ∣ cap * sz % 2 ^ 64) :
    (new cap : Pool T sz).Tight cap 0 where
  slabs := by simpa [new, addSlab, firstSlots] using (Nat.div_mul_cancel hdvd).symm
  cursor := ⟨0, Nat.zero_le _, by simp [new, addSlab]⟩
  slabEnd := by simpa [new, addSlab, firstSlots] using (Nat.div_mul_cancel hdvd).symm
  last := by simpa [new, addSlab] using (Nat.mod_eq_of_lt hcap).symm
  capacity := by simp [new, addSlab]
  used := by
    refine ⟨[], List.nodup_nil, rfl, fun a => ?_⟩
    have hnot : ¬ (new cap : Pool T sz).Live a := new_not_live cap a
    simp only [List.not_mem_nil, or_false, hnot, false_iff, not_and]
    rintro - (hlt | ⟨-, hlt⟩)
    · exact absurd hlt (Nat.not_lt_zero _)
    · exact absurd hlt (Nat.not_lt_zero _)

/-! ### Counting slots -/

/-- The sum of sizes that double. -/
theorem sum_doubling (c n : ℕ) :
    ((List.range (n + 1)).map fun j => 2 ^ j * c).sum = (2 ^ (n + 1) - 1) * c := by
  induction n with
  | zero => simp
  | succ n ih =>
      have hone : 1 ≤ 2 ^ (n + 1) := Nat.one_le_two_pow
      have hsum : 2 ^ (n + 1 + 1) - 1 = 2 ^ (n + 1) - 1 + 2 ^ (n + 1) := by
        rw [Nat.pow_succ 2 (n + 1)]
        omega
      rw [List.range_succ, List.map_append, List.sum_append, ih, hsum, Nat.add_mul]
      simp

/-- The slots of slabs `0` to `n`. -/
def slotList (sz q n : ℕ) : List Addr :=
  (List.range (n + 1)).flatMap fun j => (List.range (2 ^ j * q)).map fun i => ⟨j, i * sz⟩

theorem length_slotList (sz q n : ℕ) : (slotList sz q n).length = (2 ^ (n + 1) - 1) * q := by
  rw [slotList, List.length_flatMap, ← sum_doubling]
  simp only [List.length_map, List.length_range]

theorem nodup_slotList (hsz : 0 < sz) (q n : ℕ) : (slotList sz q n).Nodup := by
  refine List.nodup_flatMap.mpr ⟨fun j _ => List.nodup_range.map fun i i' he => ?_, ?_⟩
  · exact Nat.eq_of_mul_eq_mul_right hsz (Addr.mk.inj he).2
  · refine List.nodup_range.imp fun hne a ha ha' => hne ?_
    obtain ⟨i, -, rfl⟩ := List.mem_map.mp ha
    obtain ⟨i', -, he⟩ := List.mem_map.mp ha'
    exact (Addr.mk.inj he).1.symm

namespace Tight

variable {cap n : ℕ} {p : Pool T sz}

theorem slot_of_mem_slotList (h : p.Tight cap n) {a : Addr}
    (ha : a ∈ slotList sz (firstSlots sz cap) n) : p.Slot a := by
  obtain ⟨j, hj, ha⟩ := List.mem_flatMap.mp ha
  obtain ⟨i, hi, rfl⟩ := List.mem_map.mp ha
  rw [List.mem_range] at hi hj
  refine h.slot_iff.mpr ⟨Nat.dvd_mul_left sz i, Nat.le_of_lt_succ hj, ?_⟩
  have hle := Nat.mul_le_mul_right sz hi
  rw [Nat.succ_mul, Nat.mul_assoc] at hle
  exact hle

theorem mem_slotList (h : p.Tight cap n) (hsz : 0 < sz) {a : Addr} (ha : p.Slot a) :
    a ∈ slotList sz (firstSlots sz cap) n := by
  obtain ⟨⟨i, hi⟩, hslab, hoff⟩ := h.slot_iff.mp ha
  refine List.mem_flatMap.mpr ⟨a.slab, List.mem_range.mpr (by omega), List.mem_map.mpr ⟨i, ?_, ?_⟩⟩
  · rw [List.mem_range]
    rw [hi, Nat.mul_comm sz i, ← Nat.succ_mul, ← Nat.mul_assoc] at hoff
    exact Nat.le_of_mul_le_mul_right hoff hsz
  · rw [Nat.mul_comm i sz, ← hi]

/-- There are no more live objects than slots. -/
theorem length_le (h : p.Tight cap n) (hsz : 0 < sz) {live : List Addr} (hnd : live.Nodup)
    (hlive : ∀ a ∈ live, p.Live a) : live.length ≤ (2 ^ (n + 1) - 1) * firstSlots sz cap := by
  obtain ⟨free, -, -, hused⟩ := h.used
  rw [← length_slotList sz]
  refine (List.Nodup.subperm hnd fun a ha => ?_).length_le
  exact h.mem_slotList hsz ((hused a).mp (Or.inl (hlive a ha))).1

/-- A full pool holds as many live objects as it has slots. -/
theorem le_length_of_full (h : p.Tight cap n) (hsz : 0 < sz) (hfull : p.Full) {live : List Addr}
    (hlive : ∀ a, p.Live a → a ∈ live) : (2 ^ (n + 1) - 1) * firstSlots sz cap ≤ live.length := by
  rw [← length_slotList sz]
  refine (List.Nodup.subperm (nodup_slotList hsz _ n) fun a ha => hlive a ?_).length_le
  exact h.live_of_full hsz hfull (h.slot_of_mem_slotList ha)

theorem slabs_sum (h : p.Tight cap n) :
    p.slabs.sum = (2 ^ (n + 1) - 1) * (firstSlots sz cap * sz) := by
  rw [h.slabs]
  exact sum_doubling _ n

end Tight

/-! ### Runs of a pool with a proper first slab -/

/-- What a run keeps. -/
structure Held.Fine (memory cap : ℕ) (h : Held T sz) : Prop where
  wf : h.pool.WF
  tight : ∃ n, h.pool.Tight cap n
  nodup : h.live.Nodup
  live : ∀ a, a ∈ h.live ↔ h.pool.Live a
  room : h.pool.slabs.sum ≤ memory

section proper

variable {memory cap : ℕ} {h : Held T sz}

/-- A slab that can be allocated is smaller than `2 ^ 64`. -/
theorem Tight.fit {p : Pool T sz} {n : ℕ} (ht : p.Tight cap n) (hroom : p.slabs.sum ≤ memory)
    (hmem : memory < 2 ^ 63) : 2 ^ (n + 1) * (firstSlots sz cap * sz) < 2 ^ 64 := by
  rw [ht.slabs_sum] at hroom
  have hone : 1 ≤ 2 ^ n := Nat.one_le_two_pow
  have hpow : 2 ^ (n + 1) = 2 ^ (n + 1) - 1 + 1 := by omega
  have hfirst : firstSlots sz cap * sz ≤ (2 ^ (n + 1) - 1) * (firstSlots sz cap * sz) :=
    Nat.le_mul_of_pos_left _ (by rw [Nat.pow_succ]; omega)
  rw [hpow, Nat.succ_mul]
  omega

theorem fresh_fine (hcap : cap < 2 ^ 64) (hdvd : sz ∣ cap * sz % 2 ^ 64)
    (hfits : cap * sz % 2 ^ 64 ≤ memory) : (fresh cap : Held T sz).Fine memory cap where
  wf := new_wf cap
  tight := ⟨0, new_tight hcap hdvd⟩
  nodup := List.nodup_nil
  live a := iff_of_false List.not_mem_nil (new_not_live cap a)
  room := by simpa [fresh, new, addSlab] using hfits

theorem Held.Fine.create (hf : h.Fine memory cap) (hsz : 0 < sz) (hdvd : sz ∣ cap * sz % 2 ^ 64)
    (hpos : 0 < firstSlots sz cap) (hmem : memory < 2 ^ 63) (v : T) :
    (poolStep memory h (.create v)).1.Fine memory cap := by
  by_cases hroom : (h.pool.create v).2.slabs.sum ≤ memory
  · have hstep := poolStep_create hroom
    obtain ⟨n, ht⟩ := hf.tight
    have htight : ∃ n, (h.pool.create v).2.Tight cap n := by
      by_cases hfull : h.pool.Full
      · have hd := ht.doubled hsz hdvd hfull (ht.fit hf.room hmem)
        have hnot := hd.doubled_not_full hsz hpos
        rw [create_of_full hfull hnot]
        exact ⟨n + 1, (hd.create (hf.wf.addSlab _) hsz hnot v).1⟩
      · exact ⟨n, (ht.create hf.wf hsz hfull v).1⟩
    have hnew : (h.pool.create v).1 ∉ h.live := by
      rw [hf.live]
      exact (hf.wf.rawSlot hsz).1
    rw [hstep]
    refine ⟨create_wf hf.wf hsz v, htight, List.nodup_cons.mpr ⟨hnew, hf.nodup⟩, fun a => ?_, hroom⟩
    rw [List.mem_cons, hf.live, create_live hf.wf hsz]
  · have hstep : (poolStep memory h (.create v)).1 = h := by
      simp only [poolStep, if_neg hroom]
    rw [hstep]
    exact hf

theorem Held.Fine.destroy (hf : h.Fine memory cap) {a : Addr} (ha : a ∈ h.live) :
    (poolStep memory h (.destroy a)).1.Fine memory cap := by
  obtain ⟨n, ht⟩ := hf.tight
  have hlive := (hf.live a).mp ha
  refine ⟨destroy_wf hf.wf hlive, ⟨n, ht.destroy hlive⟩, hf.nodup.erase a, fun b => ?_, hf.room⟩
  show b ∈ h.live.erase a ↔ (h.pool.destroy a).Live b
  rw [hf.nodup.mem_erase_iff, destroy_live, hf.live]
  tauto

theorem fine_run (hsz : 0 < sz) (hdvd : sz ∣ cap * sz % 2 ^ 64) (hpos : 0 < firstSlots sz cap)
    (hmem : memory < 2 ^ 63) (hcap : cap < 2 ^ 64) (hfits : cap * sz % 2 ^ 64 ≤ memory)
    {ops : List (PoolOp T)} (hops : Transition.Along (poolStep memory) OnLive
      (fresh cap : Held T sz) ops) : (poolRun memory cap ops : Held T sz).Fine memory cap := by
  refine Transition.inv_finalState (fun h op hf hop => ?_) (fresh_fine hcap hdvd hfits) hops
  cases op with
  | create v => exact hf.create hsz hdvd hpos hmem v
  | destroy a => exact hf.destroy hop

/-- `capacity()` counts the slots, or more when it is a capacity whose byte size wrapped. -/
theorem Held.Fine.length_le_capacity (hf : h.Fine memory cap) (hsz : 0 < sz)
    (hdvd : sz ∣ cap * sz % 2 ^ 64) (hmem : memory < 2 ^ 63) :
    h.live.length ≤ h.pool.capacity := by
  obtain ⟨n, ht⟩ := hf.tight
  have hlen := ht.length_le hsz hf.nodup fun a ha => (hf.live a).mp ha
  have hsum := hf.room
  rw [ht.slabs_sum, ← Nat.mul_assoc] at hsum
  -- as many bytes as the slots take, modulo 2 ^ 64
  have hbytes : h.pool.capacity * sz % 2 ^ 64 = (2 ^ (n + 1) - 1) * firstSlots sz cap * sz := by
    rw [ht.capacity, Nat.mod_mul_mod, Nat.mul_assoc, Nat.mul_mod, ← Nat.div_mul_cancel hdvd,
      Nat.mod_mul_mod, ← firstSlots, ← Nat.mul_assoc]
    exact Nat.mod_eq_of_lt (by omega)
  have hmod := Nat.mod_le (h.pool.capacity * sz) (2 ^ 64)
  rw [hbytes] at hmod
  exact hlen.trans (Nat.le_of_mul_le_mul_right hmod hsz)

theorem Held.Fine.safe (hf : h.Fine memory cap) (hsz : 0 < sz) (hdvd : sz ∣ cap * sz % 2 ^ 64)
    (hmem : memory < 2 ^ 63) : h.Safe := by
  obtain ⟨n, ht⟩ := hf.tight
  have hinside : ∀ a ∈ h.live, h.pool.Slot a := by
    intro a ha
    obtain ⟨free, -, -, hused⟩ := ht.used
    exact ((hused a).mp (Or.inl ((hf.live a).mp ha))).1
  refine ⟨hinside, ?_, ?_, hf.length_le_capacity hsz hdvd hmem, fun v hgrow a ha => ?_⟩
  · refine hf.nodup.imp_of_mem fun {a b} ha hb hne => ?_
    obtain ⟨⟨i, hi⟩, -⟩ := hinside a ha
    obtain ⟨⟨j, hj⟩, -⟩ := hinside b hb
    by_cases hslab : a.slab = b.slab
    · have hij : i ≠ j := by
        rintro rfl
        exact hne (congrArg₂ Addr.mk hslab (hi.trans hj.symm))
      refine Or.inr ?_
      rw [hi, hj, ← Nat.mul_succ, ← Nat.mul_succ]
      rcases Nat.lt_or_gt_of_ne hij with hlt | hlt
      · exact Or.inl (Nat.mul_le_mul_left sz hlt)
      · exact Or.inr (Nat.mul_le_mul_left sz hlt)
    · exact Or.inl hslab
  · obtain ⟨free, -, hchain⟩ := hf.wf.chain
    refine ⟨free, hchain, fun a ha hmem => ?_⟩
    obtain ⟨next, hnext⟩ := hchain.node a hmem
    obtain ⟨v, hv⟩ := (hf.live a).mp ha
    rw [hv] at hnext
    cases hnext
  · have hfull : h.pool.Full := by
      by_contra hroom
      rw [create_slabs, if_neg hroom] at hgrow
      exact hgrow rfl
    exact (hf.live a).mpr (ht.live_of_full hsz hfull ha)

end proper

/-! ### Runs of a pool without one -/

/-- A first slab of no bytes is followed by another. -/
theorem not_safe_of_empty {memory cap : ℕ} (hsz : 0 < sz) (hempty : cap * sz % 2 ^ 64 = 0) (v : T) :
    ¬ (poolRun memory cap [.create v] : Held T sz).Safe := by
  have hnext : cap * 2 % 2 ^ 64 * sz % 2 ^ 64 = 0 := by
    rw [Nat.mod_mul_mod, Nat.mul_assoc, Nat.mul_comm 2 sz, ← Nat.mul_assoc, ← Nat.mod_mul_mod,
      hempty]
    rfl
  have hfull : (new cap : Pool T sz).Full := by
    refine ⟨rfl, ?_⟩
    show (⟨0, 0⟩ : Addr) = ⟨0, cap * sz % 2 ^ 64⟩
    rw [hempty]
  have hslabs : ((new cap : Pool T sz).create v).2.slabs = [0, 0] := by
    rw [create_slabs, if_pos hfull]
    show [cap * sz % 2 ^ 64, cap * 2 % 2 ^ 64 * sz % 2 ^ 64] = [0, 0]
    rw [hempty, hnext]
  have hstep : (poolStep memory (fresh cap : Held T sz) (.create v)).1 =
      ⟨((new cap : Pool T sz).create v).2, [((new cap : Pool T sz).create v).1]⟩ :=
    poolStep_create (by
      rw [show (fresh cap : Held T sz).pool = new cap from rfl, hslabs]
      exact Nat.zero_le memory)
  intro hsafe
  obtain ⟨-, bytes, hget, hle⟩ := hsafe.inside ((new cap : Pool T sz).create v).1 (by
    show _ ∈ (poolStep memory (fresh cap : Held T sz) (.create v)).1.live
    rw [hstep]
    exact List.mem_singleton_self _)
  have hzero : bytes ∈ [0, 0] := by
    refine List.mem_of_getElem? (i := ((new cap : Pool T sz).create v).1.slab) ?_
    rw [← hslabs, ← hget]
    show _ = (poolStep memory (fresh cap : Held T sz) (.create v)).1.pool.slabs[_]?
    rw [hstep]
  simp only [List.mem_cons, List.not_mem_nil, or_false, or_self] at hzero
  omega

/-- A first slab that is not filled exactly: the cursor never meets its end. -/
theorem run_of_rest {memory cap : ℕ} (hrest : ¬ sz ∣ cap * sz % 2 ^ 64)
    (hfits : cap * sz % 2 ^ 64 ≤ memory) (v : T) (k : ℕ) :
    ∃ h : Held T sz, (poolRun memory cap (List.replicate k (.create v))) = h ∧
      h.pool.free = none ∧ h.pool.slabs = [cap * sz % 2 ^ 64] ∧ h.pool.cursor = ⟨0, k * sz⟩ ∧
      h.pool.slabEnd = ⟨0, cap * sz % 2 ^ 64⟩ ∧ ∀ i < k, ⟨0, i * sz⟩ ∈ h.live := by
  induction k with
  | zero => exact ⟨_, rfl, rfl, rfl, by simp [fresh, poolRun, Transition.finalState, new, addSlab],
      rfl, fun i hi => absurd hi (Nat.not_lt_zero i)⟩
  | succ k ih =>
      obtain ⟨h, hrun, hfree, hslabs, hcursor, hend, hlive⟩ := ih
      have hroom : ¬ h.pool.Full := by
        rintro ⟨-, heq⟩
        rw [hcursor, hend] at heq
        exact hrest ⟨k, by rw [Nat.mul_comm sz k]; exact (Addr.mk.inj heq).2.symm⟩
      have hraw := rawSlot_of_bump hfree hroom
      have hslabs' : (h.pool.create v).2.slabs = [cap * sz % 2 ^ 64] := by
        rw [create_slabs, if_neg hroom, hslabs]
      have hstep : (poolStep memory h (.create v)).1 =
          ⟨(h.pool.create v).2, (h.pool.create v).1 :: h.live⟩ :=
        poolStep_create (by rw [hslabs', List.sum_singleton]; exact hfits)
      have haddr : (h.pool.create v).1 = ⟨0, k * sz⟩ := (congrArg Prod.fst hraw).trans hcursor
      refine ⟨⟨(h.pool.create v).2, (h.pool.create v).1 :: h.live⟩, ?_, ?_, hslabs', ?_, ?_, ?_⟩
      · rw [List.replicate_succ', poolRun_snoc, hrun, hstep]
      · show h.pool.rawSlot.2.free = none
        rw [hraw]
        exact hfree
      · show h.pool.rawSlot.2.cursor = _
        rw [hraw, hcursor, Nat.succ_mul]
      · show h.pool.rawSlot.2.slabEnd = _
        rw [hraw]
        exact hend
      · intro i hi
        rcases Nat.lt_or_eq_of_le (Nat.le_of_lt_succ hi) with hlt | rfl
        · exact List.mem_cons_of_mem _ (hlive i hlt)
        · rw [haddr]
          exact List.mem_cons_self

/-- A first slab with a rest: the cursor steps over its end. -/
theorem not_safe_of_rest {memory cap : ℕ} (hrest : ¬ sz ∣ cap * sz % 2 ^ 64)
    (hfits : cap * sz % 2 ^ 64 ≤ memory) (v : T) :
    ¬ (poolRun memory cap (List.replicate (cap * sz % 2 ^ 64 / sz + 1) (.create v)) :
      Held T sz).Safe := by
  obtain ⟨h, hrun, -, hslabs, -, -, hlive⟩ :=
    run_of_rest hrest hfits v (cap * sz % 2 ^ 64 / sz + 1)
  rw [hrun]
  intro hsafe
  have hin := hlive (cap * sz % 2 ^ 64 / sz) (Nat.lt_add_one _)
  obtain ⟨-, bytes, hget, hle⟩ := hsafe.inside _ hin
  rw [hslabs] at hget
  obtain rfl : cap * sz % 2 ^ 64 = bytes := Option.some.inj hget
  have hsplit := Nat.div_add_mod' (cap * sz % 2 ^ 64) sz
  have hlt : cap * sz % 2 ^ 64 % sz ≠ 0 := fun he => hrest (Nat.dvd_of_mod_eq_zero he)
  have hsz : 0 < sz := Nat.pos_of_ne_zero fun he => hrest (by
    rw [he, Nat.mul_zero]
    exact ⟨0, rfl⟩)
  have hmod := Nat.mod_lt (cap * sz % 2 ^ 64) hsz
  simp only at hle
  omega

theorem along_create {memory : ℕ} (v : T) : ∀ (k : ℕ) (h : Held T sz),
    Transition.Along (poolStep memory) OnLive h (List.replicate k (.create v))
  | 0, _ => trivial
  | k + 1, _ => ⟨trivial, along_create v k _⟩

/-! ### The pool of a session -/

/-- **Every run is safe if and only if the first slab holds a whole positive number of objects.**
Storage is what `::operator new` can give: less than half of the address space, and enough for the
first slab. -/
theorem safe_iff [Inhabited T] {memory cap : ℕ} (hsz : 0 < sz) (hmem : memory < 2 ^ 63)
    (hcap : cap < 2 ^ 64) (hfits : cap * sz % 2 ^ 64 ≤ memory) :
    (∀ ops : List (PoolOp T), Transition.Along (poolStep memory) OnLive (fresh cap : Held T sz) ops →
      (poolRun memory cap ops : Held T sz).Safe) ↔
        cap * sz % 2 ^ 64 ≠ 0 ∧ sz ∣ cap * sz % 2 ^ 64 := by
  constructor
  · intro hsafe
    constructor
    · intro hempty
      exact not_safe_of_empty hsz hempty default (hsafe _ (along_create default 1 _))
    · by_contra hrest
      exact not_safe_of_rest hrest hfits default (hsafe _ (along_create default _ _))
  · rintro ⟨hne, hdvd⟩ ops hops
    have hpos : 0 < firstSlots sz cap :=
      Nat.div_pos (Nat.le_of_dvd (Nat.pos_of_ne_zero hne) hdvd) hsz
    exact (fine_run hsz hdvd hpos hmem hcap hfits hops).safe hsz hdvd hmem

/-- The default pool of the benchmark, for orders of `64` bytes. -/
theorem safe_iff_session : (∀ ops : List (PoolOp ℕ),
    Transition.Along (poolStep (2 ^ 32)) OnLive (fresh (2 ^ 17) : Held ℕ 64) ops →
      (poolRun (2 ^ 32) (2 ^ 17) ops : Held ℕ 64).Safe) ↔
        2 ^ 17 * 64 % 2 ^ 64 ≠ 0 ∧ 64 ∣ 2 ^ 17 * 64 % 2 ^ 64 :=
  safe_iff (by decide) (by decide) (by decide) (by decide)

/-- With a capacity of `0` the first object already lies outside of every slab. -/
theorem not_safe_empty : ¬ ∀ ops : List (PoolOp ℕ),
    Transition.Along (poolStep (2 ^ 32)) OnLive (fresh 0 : Held ℕ 64) ops →
      (poolRun (2 ^ 32) 0 ops : Held ℕ 64).Safe :=
  fun hsafe => not_safe_of_empty (by decide) rfl 0 (hsafe _ (along_create 0 1 _))

end Pool

end Lob
