import LimitOrderBook.Types

/-! # What an engine stores, and the parts it is assembled from

An engine keeps its resting orders in allocated nodes (`Order`), queued per price in `Level`s.
The engines of the repository share their matching code and differ in three parts, each an
interface here:

* an `Allocator` of order nodes (`new`/`delete`, or a slab pool);
* an `Index` from ids to nodes (a hash map);
* a `Ladder` of levels per side (a search tree, or a flat band with a bitmap).

Next to each interface stand its laws, in terms of which the matching code is verified once for
every engine.  The laws of a ladder speak of `occ`, the prices it holds a level for; a level
taken off the ladder must be blank again before its price is used next. -/

namespace Lob

/-- The target of an order's `level` back-pointer. -/
structure LevelRef where
  side : Side
  price : Int
deriving DecidableEq, Repr, Inhabited

/-- A resting order, as a node of the queue at its price; `A` is the type of pointers. -/
structure Order (A : Type) where
  qty : Qty
  owner : Owner
  next : Option A
  id : OrderId
  price : Int
  prev : Option A
  level : LevelRef
  side : Side
deriving DecidableEq, Repr, Inhabited

structure Level (A : Type) where
  head : Option A := none
  tail : Option A := none
  totalQty : UInt64 := 0
  count : UInt32 := 0
  price : Int := 0
deriving DecidableEq, Repr, Inhabited

/-- A level without orders; its price is left open. -/
def Level.Blank {A : Type} (l : Level A) : Prop :=
  l.head = none ∧ l.tail = none ∧ l.totalQty = 0 ∧ l.count = 0

/-! ### Allocators -/

class Allocator (P : Type) (A T : outParam Type) where
  deref : P → A → T
  write : P → A → T → P
  create : P → T → A × P
  destroy : P → A → P

class LawfulAllocator (P : Type) (A T : outParam Type) [Allocator P A T] where
  WF : P → Prop
  Live : P → A → Prop
  create_fresh {p : P} : WF p → ∀ v, ¬ Live p (Allocator.create p v).1
  create_wf {p : P} : WF p → ∀ v, WF (Allocator.create p v).2
  create_live {p : P} : WF p → ∀ v a,
    Live (Allocator.create p v).2 a ↔ a = (Allocator.create p v).1 ∨ Live p a
  deref_create_self {p : P} : WF p → ∀ v,
    Allocator.deref (Allocator.create p v).2 (Allocator.create p v).1 = v
  deref_create {p : P} : WF p → ∀ v a, Live p a →
    Allocator.deref (Allocator.create p v).2 a = Allocator.deref p a
  destroy_wf {p : P} {a : A} : WF p → Live p a → WF (Allocator.destroy p a)
  destroy_live {p : P} {a : A} : WF p → Live p a → ∀ b,
    Live (Allocator.destroy p a) b ↔ Live p b ∧ b ≠ a
  deref_destroy {p : P} {a : A} : WF p → Live p a → ∀ b, b ≠ a →
    Allocator.deref (Allocator.destroy p a) b = Allocator.deref p b
  write_wf {p : P} {a : A} : WF p → Live p a → ∀ v, WF (Allocator.write p a v)
  write_live {p : P} {a : A} : WF p → Live p a → ∀ v b,
    Live (Allocator.write p a v) b ↔ Live p b
  deref_write_self {p : P} {a : A} : ∀ v, Allocator.deref (Allocator.write p a v) a = v
  deref_write {p : P} {a b : A} : ∀ v, b ≠ a →
    Allocator.deref (Allocator.write p a v) b = Allocator.deref p b

/-- The allocator seen by a program that has lost the objects at `G`: it never touches them again,
and they stay allocated. -/
@[reducible] def LawfulAllocator.leaking {P A T : Type} [Allocator P A T] [L : LawfulAllocator P A T]
    (G : A → Prop) : LawfulAllocator P A T where
  WF p := L.WF p ∧ ∀ g, G g → L.Live p g
  Live p a := L.Live p a ∧ ¬ G a
  create_fresh h v hl := L.create_fresh h.1 v hl.1
  create_wf h v := ⟨L.create_wf h.1 v, fun g hg => (L.create_live h.1 v g).mpr (Or.inr (h.2 g hg))⟩
  create_live {p} h v a := by
    have hnew : ¬ G (Allocator.create p v).1 := fun hg => L.create_fresh h.1 v (h.2 _ hg)
    rw [L.create_live h.1 v a]
    constructor
    · rintro ⟨rfl | ha, hg⟩
      · exact Or.inl rfl
      · exact Or.inr ⟨ha, hg⟩
    · rintro (rfl | ⟨ha, hg⟩)
      · exact ⟨Or.inl rfl, hnew⟩
      · exact ⟨Or.inr ha, hg⟩
  deref_create_self h v := L.deref_create_self h.1 v
  deref_create h v a ha := L.deref_create h.1 v a ha.1
  destroy_wf {p a} h ha := by
    refine ⟨L.destroy_wf h.1 ha.1, fun g hg => ?_⟩
    have hne : g ≠ a := by
      rintro rfl
      exact ha.2 hg
    exact (L.destroy_live h.1 ha.1 g).mpr ⟨h.2 g hg, hne⟩
  destroy_live h ha b := by
    rw [L.destroy_live h.1 ha.1 b]
    tauto
  deref_destroy h ha b hne := L.deref_destroy h.1 ha.1 b hne
  write_wf h ha v := ⟨L.write_wf h.1 ha.1 v, fun g hg =>
    (L.write_live h.1 ha.1 v g).mpr (h.2 g hg)⟩
  write_live h ha v b := by rw [L.write_live h.1 ha.1 v b]
  deref_write_self v := L.deref_write_self v
  deref_write v hne := L.deref_write v hne

/-! ### Indices -/

class Index (I : Type) (A : outParam Type) where
  find : I → OrderId → Option A
  insert : I → OrderId → A → I
  erase : I → OrderId → I
  size : I → ℕ

/-- `Key` tells the ids that the index can store: every id but perhaps `0`. -/
class LawfulIndex (I : Type) (A : outParam Type) [Index I A] where
  WF : I → Prop
  Key : OrderId → Prop
  key_of_ne {k : OrderId} : k ≠ 0 → Key k
  insert_wf {i : I} {k : OrderId} : WF i → Key k → Index.find i k = none → ∀ a,
    WF (Index.insert i k a)
  find_insert {i : I} {k : OrderId} : WF i → Key k → Index.find i k = none → ∀ a k',
    Index.find (Index.insert i k a) k' = if k' = k then some a else Index.find i k'
  size_insert {i : I} {k : OrderId} : WF i → Key k → Index.find i k = none → ∀ a,
    Index.size (Index.insert i k a) = Index.size i + 1
  erase_wf {i : I} {k : OrderId} : WF i → Key k → Index.find i k ≠ none → WF (Index.erase i k)
  find_erase {i : I} {k : OrderId} : WF i → Key k → Index.find i k ≠ none → ∀ k',
    Index.find (Index.erase i k) k' = if k' = k then none else Index.find i k'
  size_erase {i : I} {k : OrderId} : WF i → Key k → Index.find i k ≠ none →
    Index.size (Index.erase i k) + 1 = Index.size i

/-- An index that reserves id `0`. -/
class Reserves (I : Type) {A : Type} [Index I A] [LawfulIndex I A] : Prop where
  key_ne {k : OrderId} : LawfulIndex.Key I k → k ≠ 0

namespace LawfulIndex

variable {I A : Type} [Index I A] [LawfulIndex I A]

/-- Ids that are found are counted. -/
theorem length_le_size : ∀ {i : I} {ks : List OrderId}, WF i → ks.Nodup →
    (∀ k ∈ ks, Key I k ∧ Index.find i k ≠ none) → ks.length ≤ Index.size i
  | _, [], _, _, _ => Nat.zero_le _
  | i, k :: ks, hwf, hnd, hks => by
      obtain ⟨hk, hnd'⟩ := List.nodup_cons.mp hnd
      obtain ⟨hkey, hfound⟩ := hks k List.mem_cons_self
      have hrest : ∀ k' ∈ ks, Key I k' ∧ Index.find (Index.erase i k) k' ≠ none := by
        intro k' hk'
        obtain ⟨hkey', hfound'⟩ := hks k' (List.mem_cons_of_mem k hk')
        have hne : k' ≠ k := by
          rintro rfl
          exact hk hk'
        rw [find_erase hwf hkey hfound, if_neg hne]
        exact ⟨hkey', hfound'⟩
      have hle := length_le_size (erase_wf hwf hkey hfound) hnd' hrest
      have hsize := size_erase hwf hkey hfound
      rw [List.length_cons]
      omega

/-- Once as many ids are known as are counted, no other is found. -/
theorem mem_of_size_le {i : I} {ks : List OrderId} (hwf : WF i) (hnd : ks.Nodup)
    (hks : ∀ k ∈ ks, Key I k ∧ Index.find i k ≠ none) (hsize : Index.size i ≤ ks.length)
    {k : OrderId} (hkey : Key I k) (hfound : Index.find i k ≠ none) : k ∈ ks := by
  by_contra hk
  have hle := length_le_size hwf (List.nodup_cons.mpr ⟨hk, hnd⟩) (by
    intro k' hk'
    rcases List.mem_cons.mp hk' with rfl | hk'
    · exact ⟨hkey, hfound⟩
    · exact hks k' hk')
  rw [List.length_cons] at hle
  omega

end LawfulIndex

/-! ### Ladders -/

/-- The side `s` of a ladder is a parameter of its operations, as it is a template parameter in
the source.  `link s l px f` brings the level at `px` into the ladder and rewrites it by `f`;
`emptied s l it px` is told that the level at `it`, of price field `px`, has lost its last
order. -/
class Ladder (L : Type) (A : outParam Type) where
  inBand : L → Int → Bool
  best? : Side → L → Option Int
  worse? : Side → L → Int → Option Int
  level : L → Int → Level A
  setLevel : L → Int → Level A → L
  link : Side → L → Int → (Level A → Level A) → L
  emptied : Side → L → Int → Int → L

class LawfulLadder (L : Type) (A : outParam Type) [Ladder L A] where
  WF : Side → L → Prop
  occ : L → Int → Prop
  inBand_of_occ {s : Side} {l : L} {p : Int} : WF s l → occ l p → Ladder.inBand l p = true
  best?_none {s : Side} {l : L} : WF s l → Ladder.best? s l = none → ∀ p, ¬ occ l p
  best?_some {s : Side} {l : L} {p : Int} : WF s l → Ladder.best? s l = some p →
    occ l p ∧ ∀ q, occ l q → ¬ better s q p
  worse?_none {s : Side} {l : L} {p : Int} : WF s l → occ l p → Ladder.worse? s l p = none →
    ∀ q, occ l q → ¬ better s p q
  worse?_some {s : Side} {l : L} {p q : Int} : WF s l → occ l p → Ladder.worse? s l p = some q →
    occ l q ∧ better s p q ∧ ∀ r, occ l r → better s p r → ¬ better s r q
  blank {s : Side} {l : L} {p : Int} : WF s l → Ladder.inBand l p = true → ¬ occ l p →
    (Ladder.level l p).Blank
  setLevel_wf {s : Side} {l : L} {p : Int} {v : Level A} : WF s l → occ l p → v.price = p →
    WF s (Ladder.setLevel l p v)
  setLevel_occ {s : Side} {l : L} {p : Int} {v : Level A} : WF s l → occ l p →
    ∀ q, occ (Ladder.setLevel l p v) q ↔ occ l q
  setLevel_inBand {s : Side} {l : L} {p : Int} {v : Level A} : WF s l → occ l p →
    ∀ q, Ladder.inBand (Ladder.setLevel l p v) q = Ladder.inBand l q
  level_setLevel {s : Side} {l : L} {p : Int} {v : Level A} : WF s l → occ l p →
    ∀ q, Ladder.inBand l q = true →
      Ladder.level (Ladder.setLevel l p v) q = if q = p then v else Ladder.level l q
  link_wf {s : Side} {l : L} {p : Int} {f : Level A → Level A} : WF s l →
    Ladder.inBand l p = true → ((Ladder.level l p).head.isSome = true ↔ occ l p) →
    (∀ v, (f v).price = v.price) → WF s (Ladder.link s l p f)
  link_occ {s : Side} {l : L} {p : Int} {f : Level A → Level A} : WF s l →
    Ladder.inBand l p = true → ((Ladder.level l p).head.isSome = true ↔ occ l p) →
    ∀ q, occ (Ladder.link s l p f) q ↔ q = p ∨ occ l q
  link_inBand {s : Side} {l : L} {p : Int} {f : Level A → Level A} : WF s l →
    ∀ q, Ladder.inBand (Ladder.link s l p f) q = Ladder.inBand l q
  level_link {s : Side} {l : L} {p : Int} {f : Level A → Level A} : WF s l →
    Ladder.inBand l p = true → ∀ q, Ladder.inBand l q = true →
      Ladder.level (Ladder.link s l p f) q =
        if q = p then f { Ladder.level l p with price := p } else Ladder.level l q
  emptied_wf {s : Side} {l : L} {p : Int} : WF s l → occ l p → (Ladder.level l p).Blank →
    WF s (Ladder.emptied s l p p)
  emptied_occ {s : Side} {l : L} {p : Int} : WF s l → occ l p →
    ∀ q, occ (Ladder.emptied s l p p) q ↔ occ l q ∧ q ≠ p
  emptied_inBand {s : Side} {l : L} {p : Int} : WF s l →
    ∀ q, Ladder.inBand (Ladder.emptied s l p p) q = Ladder.inBand l q
  level_emptied {s : Side} {l : L} {p : Int} : WF s l →
    ∀ q, q ≠ p → Ladder.level (Ladder.emptied s l p p) q = Ladder.level l q
  price_of_occ {s : Side} {l : L} {p : Int} : WF s l → occ l p → (Ladder.level l p).price = p

end Lob
