import Mathlib.Data.List.Nodup
import LimitOrderBook.Store

/-! # The slab pool

`Pool T sz` is the pool of `include/lob/pool.hpp` for objects of `sz` bytes.  An address is a
byte offset in one of the slabs; the slot at an address is untouched storage, a live object, or
a free slot whose first word links to the next free slot.  Sizes are 64-bit (`size_t`): a slab
of `elems` objects has `elems * sz` bytes modulo `2 ^ 64`.

`WF` says that the free list is a finite list of distinct free slots and that everything ever
handed out lies before the bump cursor; `create` therefore returns a slot that is not live, and
the pool is a lawful allocator. -/

namespace Lob

structure Addr where
  slab : ℕ
  off : ℕ
deriving DecidableEq, Repr, Inhabited

/-- What a slot holds: nothing yet, an object, or a free-list link. -/
inductive Cell (T : Type) where
  | raw
  | obj (v : T)
  | node (next : Option Addr)
deriving Repr

structure Pool (T : Type) (sz : ℕ) where
  mem : Addr → Cell T
  free : Option Addr
  cursor : Addr
  slabEnd : Addr
  lastSlabElems : ℕ
  capacity : ℕ
  /-- The byte size of each slab. -/
  slabs : List ℕ

namespace Pool

variable {T : Type} {sz : ℕ}

def addSlab (p : Pool T sz) (elems : ℕ) : Pool T sz :=
  { p with
    slabs := p.slabs ++ [elems * sz % 2 ^ 64]
    cursor := ⟨p.slabs.length, 0⟩
    slabEnd := ⟨p.slabs.length, elems * sz % 2 ^ 64⟩
    lastSlabElems := elems
    capacity := (p.capacity + elems) % 2 ^ 64 }

def new (initialCapacity : ℕ) : Pool T sz :=
  addSlab { mem := fun _ => .raw, free := none, cursor := ⟨0, 0⟩, slabEnd := ⟨0, 0⟩,
            lastSlabElems := 0, capacity := 0, slabs := [] } initialCapacity

/-- The next storage slot: the head of the free list, or the bump cursor, after adding a slab
twice the size of the last when the newest slab is used up. -/
def rawSlot (p : Pool T sz) : Addr × Pool T sz :=
  match p.free with
  | some n =>
      (n, { p with free := match p.mem n with
                    | .node next => next
                    | _ => none })
  | none =>
      let p := if p.cursor = p.slabEnd then p.addSlab (p.lastSlabElems * 2 % 2 ^ 64) else p
      (p.cursor, { p with cursor := ⟨p.cursor.slab, p.cursor.off + sz⟩ })

def setCell (p : Pool T sz) (a : Addr) (c : Cell T) : Pool T sz :=
  { p with mem := fun b => if b = a then c else p.mem b }

def create (p : Pool T sz) (v : T) : Addr × Pool T sz :=
  (p.rawSlot.1, p.rawSlot.2.setCell p.rawSlot.1 (.obj v))

def destroy (p : Pool T sz) (a : Addr) : Pool T sz :=
  { p.setCell a (.node p.free) with free := some a }

/-- Reading an object through a pointer. -/
def deref [Inhabited T] (p : Pool T sz) (a : Addr) : T :=
  match p.mem a with
  | .obj v => v
  | _ => default

/-- Assigning to an object through a pointer. -/
def write (p : Pool T sz) (a : Addr) (v : T) : Pool T sz := p.setCell a (.obj v)

def growCount (p : Pool T sz) : ℕ := p.slabs.length - 1

/-! ### The invariant -/

/-- The object at `a` is live. -/
def Live (p : Pool T sz) (a : Addr) : Prop := ∃ v, p.mem a = .obj v

/-- Following the links from `o` visits the free slots of the list, in order. -/
def FreeChain (mem : Addr → Cell T) : Option Addr → List Addr → Prop
  | o, [] => o = none
  | o, a :: l => o = some a ∧ ∃ next, mem a = .node next ∧ FreeChain mem next l

theorem FreeChain.congr {mem mem' : Addr → Cell T} : ∀ {l : List Addr} {o : Option Addr},
    (∀ a ∈ l, mem' a = mem a) → FreeChain mem o l → FreeChain mem' o l
  | [], _, _, h => h
  | a :: _, _, heq, ⟨h1, next, h2, h3⟩ =>
      ⟨h1, next, (heq a List.mem_cons_self).trans h2,
        h3.congr fun b hb => heq b (List.mem_cons_of_mem a hb)⟩

theorem FreeChain.node {mem : Addr → Cell T} : ∀ {l : List Addr} {o : Option Addr},
    FreeChain mem o l → ∀ a ∈ l, ∃ next, mem a = .node next
  | _ :: _, _, ⟨_, next, h2, h3⟩, a, ha => by
      rcases List.mem_cons.mp ha with rfl | ha
      · exact ⟨next, h2⟩
      · exact h3.node a ha

theorem FreeChain.eq_nil {mem : Addr → Cell T} {l : List Addr} (h : FreeChain mem none l) :
    l = [] := by
  cases l with
  | nil => rfl
  | cons a l => exact absurd h.1 (by simp)

theorem FreeChain.uncons {mem : Addr → Cell T} {a : Addr} {l : List Addr}
    (h : FreeChain mem (some a) l) :
    ∃ next rest, l = a :: rest ∧ mem a = .node next ∧ FreeChain mem next rest := by
  cases l with
  | nil => exact absurd h (by simp [FreeChain])
  | cons b rest =>
      obtain ⟨ha, next, hnext, hrest⟩ := h
      obtain rfl := Option.some.inj ha
      exact ⟨next, rest, rfl, hnext, hrest⟩

/-- `a` lies before the cursor `c`: in an older slab, or lower in the same one. -/
def Before (a c : Addr) : Prop := a.slab < c.slab ∨ a.slab = c.slab ∧ a.off < c.off

structure WF (p : Pool T sz) : Prop where
  chain : ∃ fl : List Addr, fl.Nodup ∧ FreeChain p.mem p.free fl
  used : ∀ a, p.mem a ≠ .raw → Before a p.cursor
  slab : p.cursor.slab < p.slabs.length

theorem not_before_self (a : Addr) : ¬ Before a a := by
  unfold Before; omega

theorem WF.addSlab {p : Pool T sz} (h : p.WF) (elems : ℕ) : (p.addSlab elems).WF where
  chain := h.chain
  used a ha := by
    have hb := h.used a ha
    have hs := h.slab
    unfold Before at hb
    exact Or.inl (by simp only [Pool.addSlab]; omega)
  slab := by simp [Pool.addSlab]

theorem new_wf (cap : ℕ) : (new cap : Pool T sz).WF where
  chain := ⟨[], List.nodup_nil, rfl⟩
  used a ha := absurd rfl ha
  slab := by simp [new, addSlab]

theorem new_not_live (cap : ℕ) (a : Addr) : ¬ (new cap : Pool T sz).Live a := by
  rintro ⟨v, hv⟩
  simp [new, addSlab] at hv

theorem rawSlot_of_free {p : Pool T sz} {a : Addr} {next : Option Addr} (h : p.free = some a)
    (hnext : p.mem a = .node next) : p.rawSlot = (a, { p with free := next }) := by
  simp only [rawSlot, h, hnext]

/-- What `rawSlot` returns: a slot that is not live and not free any more. -/
theorem WF.rawSlot {p : Pool T sz} (h : p.WF) (hsz : 0 < sz) :
    ¬ p.Live p.rawSlot.1 ∧ p.rawSlot.2.mem = p.mem ∧
      (∃ fl : List Addr, fl.Nodup ∧ p.rawSlot.1 ∉ fl ∧ FreeChain p.mem p.rawSlot.2.free fl) ∧
      (∀ a, p.mem a ≠ .raw → Before a p.rawSlot.2.cursor) ∧
      Before p.rawSlot.1 p.rawSlot.2.cursor ∧
      p.rawSlot.2.cursor.slab < p.rawSlot.2.slabs.length := by
  obtain ⟨fl, hnd, hfl⟩ := h.chain
  cases hfree : p.free with
  | some n =>
      rw [hfree] at hfl
      obtain ⟨next, l, rfl, hnext, hl⟩ := hfl.uncons
      obtain ⟨hnot, hnd'⟩ := List.nodup_cons.mp hnd
      rw [rawSlot_of_free hfree hnext]
      refine ⟨?_, rfl, ⟨l, hnd', hnot, hl⟩, h.used, h.used n (by rw [hnext]; simp), h.slab⟩
      rintro ⟨v, hv⟩
      rw [hnext] at hv
      cases hv
  | none =>
      -- A slab may be added first; either way the cursor's slot has never been handed out.
      obtain ⟨q, hq, hqwf, hqmem, hqfree⟩ : ∃ q : Pool T sz,
          (if p.cursor = p.slabEnd then p.addSlab (p.lastSlabElems * 2 % 2 ^ 64) else p) = q ∧
            q.WF ∧ q.mem = p.mem ∧ q.free = none := by
        by_cases hc : p.cursor = p.slabEnd
        · exact ⟨_, rfl, by rw [if_pos hc]; exact h.addSlab _, by rw [if_pos hc]; rfl,
            by rw [if_pos hc]; exact hfree⟩
        · exact ⟨_, rfl, by rw [if_neg hc]; exact h, by rw [if_neg hc],
            by rw [if_neg hc]; exact hfree⟩
      have hraw : p.rawSlot =
          (q.cursor, { q with cursor := ⟨q.cursor.slab, q.cursor.off + sz⟩ }) := by
        simp only [Pool.rawSlot, hfree, hq]
      rw [hraw]
      have hcur : Before q.cursor ⟨q.cursor.slab, q.cursor.off + sz⟩ :=
        Or.inr ⟨rfl, by simp only; omega⟩
      have hmono : ∀ a, Before a q.cursor → Before a ⟨q.cursor.slab, q.cursor.off + sz⟩ := by
        intro a ha
        unfold Before at ha ⊢
        simp only
        omega
      refine ⟨?_, hqmem, ⟨[], List.nodup_nil, List.not_mem_nil, hqfree⟩, ?_, hcur, hqwf.slab⟩
      · rintro ⟨v, hv⟩
        exact not_before_self _ (hqwf.used q.cursor (by rw [hqmem, hv]; simp))
      · intro a ha
        exact hmono a (hqwf.used a (by rw [hqmem]; exact ha))

theorem create_wf {p : Pool T sz} (h : p.WF) (hsz : 0 < sz) (v : T) : (p.create v).2.WF := by
  obtain ⟨-, hmem, ⟨fl, hnd, hnot, hfl⟩, hused, hbefore, hslab⟩ := h.rawSlot hsz
  refine ⟨⟨fl, hnd, ?_⟩, ?_, hslab⟩
  · refine hfl.congr fun a ha => ?_
    have hne : a ≠ p.rawSlot.1 := fun he => hnot (he ▸ ha)
    simp only [create, setCell, if_neg hne, hmem]
  · intro a ha
    by_cases he : a = p.rawSlot.1
    · rw [he]; exact hbefore
    · refine hused a ?_
      simpa only [create, setCell, if_neg he, hmem] using ha

theorem create_live {p : Pool T sz} (h : p.WF) (hsz : 0 < sz) (v : T) (a : Addr) :
    (p.create v).2.Live a ↔ a = (p.create v).1 ∨ p.Live a := by
  have hmem := (h.rawSlot hsz).2.1
  unfold Live
  by_cases he : a = p.rawSlot.1
  · simp [create, setCell, he]
  · simp [create, setCell, he, hmem]

theorem destroy_wf {p : Pool T sz} {a : Addr} (h : p.WF) (ha : p.Live a) : (p.destroy a).WF := by
  obtain ⟨fl, hnd, hfl⟩ := h.chain
  obtain ⟨v, hv⟩ := ha
  have hnot : a ∉ fl := by
    intro hm
    obtain ⟨next, hn⟩ := hfl.node a hm
    rw [hv] at hn
    cases hn
  refine ⟨⟨a :: fl, List.nodup_cons.mpr ⟨hnot, hnd⟩, rfl, p.free, ?_, ?_⟩, ?_, h.slab⟩
  · simp [destroy, setCell]
  · refine hfl.congr fun b hb => ?_
    have hne : b ≠ a := fun he => hnot (he ▸ hb)
    simp [destroy, setCell, hne]
  · intro b hb
    by_cases he : b = a
    · rw [he]; exact h.used a (by rw [hv]; simp)
    · exact h.used b (by simpa [destroy, setCell, he] using hb)

theorem write_wf {p : Pool T sz} {a : Addr} (h : p.WF) (ha : p.Live a) (v : T) :
    (p.write a v).WF := by
  obtain ⟨fl, hnd, hfl⟩ := h.chain
  obtain ⟨w, hw⟩ := ha
  refine ⟨⟨fl, hnd, hfl.congr fun b hb => ?_⟩, ?_, h.slab⟩
  · have hne : b ≠ a := by
      rintro rfl
      obtain ⟨next, hn⟩ := hfl.node b hb
      rw [hw] at hn
      cases hn
    simp [write, setCell, hne]
  · intro b hb
    by_cases he : b = a
    · rw [he]; exact h.used a (by rw [hw]; simp)
    · exact h.used b (by simpa [write, setCell, he] using hb)

theorem destroy_live {p : Pool T sz} {a : Addr} (b : Addr) :
    (p.destroy a).Live b ↔ p.Live b ∧ b ≠ a := by
  by_cases he : b = a
  · simp [destroy, setCell, Live, he]
  · simp [destroy, setCell, Live, he]

theorem write_live {p : Pool T sz} {a : Addr} (ha : p.Live a) (v : T) (b : Addr) :
    (p.write a v).Live b ↔ p.Live b := by
  by_cases he : b = a
  · rw [he]
    exact ⟨fun _ => ha, fun _ => ⟨v, by simp [write, setCell]⟩⟩
  · simp [write, setCell, Live, he]

section laws

variable [Inhabited T]

instance : Allocator (Pool T sz) Addr T where
  deref := deref
  write := write
  create := create
  destroy := destroy

instance [hsz : Fact (0 < sz)] : LawfulAllocator (Pool T sz) Addr T where
  WF := WF
  Live := Live
  create_fresh h v := (h.rawSlot hsz.out).1
  create_wf h v := create_wf h hsz.out v
  create_live h v a := create_live h hsz.out v a
  deref_create_self h v := by simp [Allocator.deref, Allocator.create, deref, create, setCell]
  deref_create h v a ha := by
    have hne : a ≠ (Pool.rawSlot _).1 := fun he => (h.rawSlot hsz.out).1 (he ▸ ha)
    simp [Allocator.deref, Allocator.create, deref, create, setCell, hne,
      (h.rawSlot hsz.out).2.1]
  destroy_wf h ha := destroy_wf h ha
  destroy_live _ _ b := destroy_live b
  deref_destroy h ha b hne := by
    simp [Allocator.deref, Allocator.destroy, deref, destroy, setCell, hne]
  write_wf h ha v := write_wf h ha v
  write_live _ ha v b := write_live ha v b
  deref_write_self v := by simp [Allocator.deref, Allocator.write, deref, write, setCell]
  deref_write v hne := by simp [Allocator.deref, Allocator.write, deref, write, setCell, hne]

end laws

end Pool

end Lob
