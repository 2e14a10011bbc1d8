import LimitOrderBook.Sized

/-! # Memory follows the peak

The pool and the id map never give storage back (`grown_run`), and both double when they grow.  The
pool adds a slab only when every slot holds a resting order, so it never has more than three slots
for each of the most orders that ever rested at once; the table doubles only when more than half of
it would be in use, so it never has more than four.  How many orders pass through does not matter
(`memory_run`).

That the slabs double holds while their bytes are far from 64 bits; `LawfulAllocator.keeping` adds
it to what the operations of the pool keep. -/

namespace Lob

/-- An allocator whose operations keep `K` too. -/
@[reducible] def LawfulAllocator.keeping {P A T : Type} [Allocator P A T] [L : LawfulAllocator P A T]
    (K : P → Prop) (hcreate : ∀ {p : P}, L.WF p → K p → ∀ v, K (Allocator.create p v).2)
    (hdestroy : ∀ {p : P} {a : A}, L.Live p a → K p → K (Allocator.destroy p a))
    (hwrite : ∀ {p : P} {a : A}, L.Live p a → K p → ∀ v, K (Allocator.write p a v)) :
    LawfulAllocator P A T where
  WF p := L.WF p ∧ K p
  Live := L.Live
  create_fresh h := L.create_fresh h.1
  create_wf h v := ⟨L.create_wf h.1 v, hcreate h.1 h.2 v⟩
  create_live h := L.create_live h.1
  deref_create_self h := L.deref_create_self h.1
  deref_create h := L.deref_create h.1
  destroy_wf h ha := ⟨L.destroy_wf h.1 ha, hdestroy ha h.2⟩
  destroy_live h := L.destroy_live h.1
  deref_destroy h := L.deref_destroy h.1
  write_wf h ha v := ⟨L.write_wf h.1 ha v, hwrite ha h.2 v⟩
  write_live h := L.write_live h.1
  deref_write_self := L.deref_write_self
  deref_write := L.deref_write

/-! ### The pool -/

namespace Pool

variable {T : Type} {sz cap n : ℕ} {p : Pool T sz}

/-- The slabs have doubled, as long as they are far from too many. -/
def Doubling (cap : ℕ) (p : Pool T sz) : Prop := p.slabs.sum < 2 ^ 63 → ∃ n, p.Tight cap n

/-- One more object: the slabs stay as they are, or the pool is full and gets one more. -/
theorem Tight.create_cases (h : p.Tight cap n) (hwf : p.WF) (hsz : 0 < sz)
    (hdvd : sz ∣ cap * sz % 2 ^ 64) (hpos : 0 < firstSlots sz cap) (hsum : p.slabs.sum < 2 ^ 63)
    (v : T) : ¬ p.Full ∧ (p.create v).2.Tight cap n ∨ p.Full ∧ (p.create v).2.Tight cap (n + 1) := by
  by_cases hfull : p.Full
  · have hd := h.doubled hsz hdvd hfull (h.fit (Nat.le_refl _) hsum)
    have hnot := hd.doubled_not_full hsz hpos
    rw [create_of_full hfull hnot]
    exact Or.inr ⟨hfull, (hd.create (hwf.addSlab _) hsz hnot v).1⟩
  · exact Or.inl ⟨hfull, (h.create hwf hsz hfull v).1⟩

theorem sum_le_create (p : Pool T sz) (v : T) : p.slabs.sum ≤ (p.create v).2.slabs.sum := by
  rw [create_slabs]
  split_ifs
  · show p.slabs.sum ≤ (p.slabs ++ [_]).sum
    rw [List.sum_append]
    exact Nat.le_add_right _ _
  · exact Nat.le_refl _

/-- The pool as an allocator whose slabs double. -/
@[reducible] def doubling [Inhabited T] (cap : ℕ) [hsz : Fact (0 < sz)]
    (hdvd : sz ∣ cap * sz % 2 ^ 64) (hpos : 0 < firstSlots sz cap) :
    LawfulAllocator (Pool T sz) Addr T :=
  LawfulAllocator.keeping (Doubling cap)
    (fun {p} hwf hp v hsum => by
      have hsum' : p.slabs.sum < 2 ^ 63 := Nat.lt_of_le_of_lt (sum_le_create p v) hsum
      obtain ⟨n, hn⟩ := hp hsum'
      rcases hn.create_cases hwf hsz.out hdvd hpos hsum' v with ⟨-, ht⟩ | ⟨-, ht⟩
      · exact ⟨n, ht⟩
      · exact ⟨n + 1, ht⟩)
    (fun ha hp hsum => (hp hsum).imp fun _ ht => ht.destroy ha)
    (fun ha hp v hsum => (hp hsum).imp fun _ ht => ht.write ha v)

/-- A pool that gets one more slab, and then has as many live objects as slots before, has at most
three times as many bytes as they take. -/
theorem Tight.sum_le (h : p.Tight cap (n + 1)) {k : ℕ}
    (hk : (2 ^ (n + 1) - 1) * firstSlots sz cap ≤ k) : p.slabs.sum ≤ 3 * k * sz := by
  have hone : 1 ≤ 2 ^ n := Nat.one_le_two_pow
  have hpow : 2 ^ (n + 1 + 1) - 1 = 2 * (2 ^ (n + 1) - 1) + 1 := by
    rw [Nat.pow_succ 2 (n + 1), Nat.pow_succ]
    omega
  have hfirst : firstSlots sz cap ≤ (2 ^ (n + 1) - 1) * firstSlots sz cap :=
    Nat.le_mul_of_pos_left _ (by rw [Nat.pow_succ]; omega)
  rw [h.slabs_sum, hpow, ← Nat.mul_assoc]
  refine Nat.mul_le_mul_right sz ?_
  rw [Nat.add_mul, Nat.mul_assoc]
  omega

/-- What `capacity()` says is the slots of the slabs. -/
theorem Tight.capacity_le (h : p.Tight cap n) (hsz : 0 < sz) (hcap : cap * sz < 2 ^ 64) {k : ℕ}
    (hk : p.slabs.sum ≤ k * sz) : p.capacity ≤ k := by
  have hfirst : firstSlots sz cap = cap := by
    rw [firstSlots, Nat.mod_eq_of_lt hcap, Nat.mul_div_cancel _ hsz]
  rw [h.slabs_sum, hfirst, ← Nat.mul_assoc] at hk
  rw [h.capacity]
  exact (Nat.mod_le _ _).trans (Nat.le_of_mul_le_mul_right hk hsz)

end Pool

/-! ### The id map -/

namespace IdMap

variable {V : Type} [Inhabited V]

/-- The table doubles only for a key that finds it half full. -/
theorem insert_length {m : IdMap V} (hm : m.WF) (k : OrderId) (v : V) :
    (m.insert k v).1.slots.length ≤ max m.slots.length (4 * (m.count + 1)) := by
  by_cases hroom : (m.count + 1) * 2 ≤ m.slots.length
  · rw [(insert_storage hroom k v).1]
    exact Nat.le_max_left _ _
  · have hplace : ∀ m' : IdMap V, (m'.place k v).1.slots.length = m'.slots.length := by
      intro m'
      unfold place
      split_ifs
      · exact List.length_set ..
      · rfl
    rw [insert, insertAux, if_pos (by omega), hplace, (grow_spec hm 63).2.2.1]
    omega

/-- `insert` and the `grow` in it never take a growth back. -/
theorem grows_le : ∀ (depth : ℕ) (m : IdMap V) (k : OrderId) (v : V),
    m.grows ≤ (insertAux depth m k v).1.grows := by
  have hplace : ∀ (m : IdMap V) (k : OrderId) (v : V), (m.place k v).1.grows = m.grows := by
    intro m k v
    unfold place
    split_ifs <;> rfl
  intro depth
  induction depth with
  | zero => exact fun m k v => (hplace m k v).ge
  | succ depth ih =>
      intro m k v
      rw [insertAux, hplace]
      split_ifs
      · refine List.foldlRecOn (motive := fun acc : IdMap V => m.grows ≤ acc.grows) m.slots _
          (Nat.le_succ m.grows) fun acc hacc s _ => ?_
        split_ifs
        · exact hacc
        · exact hacc.trans (ih acc s.key s.val)
      · exact Nat.le_refl _

end IdMap

namespace OrderBook

theorem linkTail_slabs (p : Pool (Order Addr) 64) (tail : Option Addr) (a : Addr) :
    (Book.linkTail p tail a).slabs = p.slabs := by
  cases tail <;> rfl

/-! ### Nothing shrinks -/

section grown

/-- At least so many slabs and so many growths. -/
theorem stable_grown (slabs grows : ℕ) :
    Book.Stable (fun p : Pool (Order Addr) 64 => slabs ≤ p.slabs.length)
      (fun m : IdMap Addr => grows ≤ m.grows) where
  write _ _ _ hp := hp
  destroy _ _ hp := hp
  erase m k hm := by
    show grows ≤ (m.erase k).1.grows
    rw [(m.erase_storage k).2]
    exact hm

variable {c : Config} {b : OrderBook} {F : Flat}

/-- Neither structure shrinks in a call. -/
theorem grown_call (h : Book.Repr c b F) (op : Op) :
    poolGrowCount b ≤ poolGrowCount (b.call op).1 ∧
      idMapGrowCount b ≤ idMapGrowCount (b.call op).1 := by
  have hgrown : (b.call op).1.Holds (fun p => b.pool.slabs.length ≤ p.slabs.length)
      (fun m => b.orders.grows ≤ m.grows) := by
    obtain ⟨b', -, -, ⟨hpool, hmap⟩, hend | ⟨s, id, px, qty, owner, -, -, hend⟩⟩ :=
      Book.Ending.call (stable_grown b.pool.slabs.length b.orders.grows) h
        ⟨Nat.le_refl _, Nat.le_refl _⟩ op
    · rw [hend]
      exact ⟨hpool, hmap⟩
    · rw [hend]
      refine Book.Stable.withLadder (b := { b' with pool := _, orders := _ }) ⟨?_, ?_⟩ s _
      · have hcreate : ∀ o, b'.pool.slabs.length ≤ (b'.pool.create o).2.slabs.length := by
          intro o
          rw [Pool.create_slabs]
          split_ifs
          · exact Nat.le.intro List.length_append.symm
          · exact Nat.le_refl _
        show b.pool.slabs.length ≤ (Book.linkTail (b'.pool.create _).2 _ _ : Pool _ 64).slabs.length
        rw [linkTail_slabs]
        exact hpool.trans (hcreate _)
      · exact hmap.trans (IdMap.grows_le 64 _ id _)
  exact ⟨Nat.sub_le_sub_right hgrown.1 1, hgrown.2⟩

/-- Nor in a run. -/
theorem grown_run (h : Book.Repr c b F) (ops : List Op) :
    poolGrowCount b ≤ poolGrowCount (Transition.finalState Book.call b ops) ∧
      idMapGrowCount b ≤ idMapGrowCount (Transition.finalState Book.call b ops) := by
  induction ops generalizing b F with
  | nil => exact ⟨Nat.le_refl _, Nat.le_refl _⟩
  | cons op ops ih =>
      obtain ⟨hpool, hmap⟩ := grown_call h op
      obtain ⟨hpool', hmap'⟩ := ih (h.call op).2
      exact ⟨hpool.trans hpool', hmap.trans hmap'⟩

end grown

/-! ### Nothing outgrows the peak -/

/-- Pools of at most `k` slots, and tables of at most `m` slots. -/
def poolWithin (k : ℕ) (p : Pool (Order Addr) 64) : Prop := p.slabs.sum ≤ k * 64

def mapWithin (m : ℕ) (t : IdMap Addr) : Prop := t.slots.length ≤ m

theorem stable_within (k m : ℕ) : Book.Stable (poolWithin k) (mapWithin m) where
  write _ _ _ hp := hp
  destroy _ _ hp := hp
  erase t id ht := by
    show (t.erase id).1.slots.length ≤ m
    rw [(t.erase_storage id).1]
    exact ht

section within

variable (cap : ℕ)

theorem dvd_bytes : 64 ∣ cap * 64 % 2 ^ 64 := by omega

variable (hpos : 0 < Pool.firstSlots 64 cap) (m₀ N : ℕ)

/-- What a book keeps on which at most `N` orders rest. -/
structure Within (c : Config) (b : OrderBook) : Prop where
  repr : letI : LawfulAllocator (Pool (Order Addr) 64) Addr (Order Addr) :=
      Pool.doubling cap (dvd_bytes cap) hpos
    ∃ F, Book.Repr c b F
  bounds : b.Holds (poolWithin (max cap (3 * N))) (mapWithin (max m₀ (4 * N)))

variable {cap hpos m₀ N} {c : Config} {b b' : OrderBook}

/-- **What the order that is queued last makes grow, it makes grow by what rests.** -/
theorem within_of_ending (hfit : max cap (3 * N) * 64 < 2 ^ 63)
    (h : letI : LawfulAllocator (Pool (Order Addr) 64) Addr (Order Addr) :=
        Pool.doubling cap (dvd_bytes cap) hpos
      Book.Ending (poolWithin (max cap (3 * N))) (mapWithin (max m₀ (4 * N))) c b')
    (hN : b'.restingOrders ≤ N) :
    b'.Holds (poolWithin (max cap (3 * N))) (mapWithin (max m₀ (4 * N))) := by
  let _ : LawfulAllocator (Pool (Order Addr) 64) Addr (Order Addr) :=
    Pool.doubling cap (dvd_bytes cap) hpos
  obtain ⟨b, F, hrepr, ⟨hpool, hmap⟩, rfl | ⟨s, id, px, qty, owner, hid, hnew, rfl⟩⟩ := h
  · exact ⟨hpool, hmap⟩
  obtain ⟨ptr, hcore⟩ := hrepr.core
  have hnone : Index.find b.orders id = none := by rw [hcore.find, if_neg hnew]
  have hsize : Index.size b.orders + 1 ≤ N := by
    rw [← LawfulIndex.size_insert hcore.index_wf hid hnone]
    refine le_trans (le_of_eq ?_) hN
    cases s <;> rfl
  have hlen : F.ids.length + 1 ≤ N := hcore.size ▸ hsize
  obtain ⟨hwf, hdoubling⟩ := hcore.pool_wf
  have hsum : b.pool.slabs.sum < 2 ^ 63 := Nat.lt_of_le_of_lt hpool hfit
  obtain ⟨n, htight⟩ := hdoubling hsum
  have hcreate : ∀ o, poolWithin (max cap (3 * N)) (b.pool.create o).2 := by
    intro o
    rcases htight.create_cases hwf (by decide) (dvd_bytes cap) hpos hsum o with
      ⟨hroom, -⟩ | ⟨hfull, ht⟩
    · show (b.pool.create o).2.slabs.sum ≤ _
      rw [Pool.create_slabs, if_neg hroom]
      exact hpool
    · -- every slot of a full pool holds a resting order
      have hlive : ∀ a, b.pool.Live a → a ∈ F.ids.map ptr := by
        intro a ha
        obtain ⟨k, hk, rfl⟩ := (hcore.live a).mp ha
        exact List.mem_map_of_mem hk
      have hle := htight.le_length_of_full (by decide) hfull hlive
      rw [List.length_map] at hle
      refine (ht.sum_le hle).trans (Nat.mul_le_mul_right 64 ?_)
      exact (Nat.mul_le_mul_left 3 (by omega)).trans (Nat.le_max_right cap (3 * N))
  refine Book.Stable.withLadder (b := { b with pool := _, orders := _ }) ⟨?_, ?_⟩ s _
  · show (Book.linkTail (b.pool.create _).2 _ _ : Pool _ 64).slabs.sum ≤ _
    rw [linkTail_slabs]
    exact hcreate _
  · have hcount : 4 * (b.orders.count + 1) ≤ 4 * N := Nat.mul_le_mul_left 4 hsize
    refine (IdMap.insert_length hcore.index_wf id _).trans (Nat.max_le.mpr ⟨hmap, ?_⟩)
    exact hcount.trans (Nat.le_max_right m₀ (4 * N))

theorem Within.call (h : Within cap hpos m₀ N c b) (hfit : max cap (3 * N) * 64 < 2 ^ 63) {op : Op}
    (hN : (b.call op).1.restingOrders ≤ N) : Within cap hpos m₀ N c (b.call op).1 := by
  let _ : LawfulAllocator (Pool (Order Addr) 64) Addr (Order Addr) :=
    Pool.doubling cap (dvd_bytes cap) hpos
  obtain ⟨F, hrepr⟩ := h.repr
  exact ⟨⟨_, (hrepr.call op).2⟩,
    within_of_ending hfit (Book.Ending.call (stable_within _ _) hrepr h.bounds op) hN⟩

theorem new_within {p : Params} (hp : p.Valid) (hcap : p.poolCapacity < 2 ^ 57)
    (hpos : 0 < Pool.firstSlots 64 p.poolCapacity) (N : ℕ) :
    Within p.poolCapacity hpos (IdMap.new p.idMapSlots : IdMap Addr).slots.length N p.config
      (new p) := by
  obtain ⟨hwf, ⟨ptr, -, hindex, hnodup, hid, hband, hfind, hsize, hinj, hlive, hlevel⟩, hladder,
    hocc, hin, hstp, hprot⟩ := new_repr hp
  let _ : LawfulAllocator (Pool (Order Addr) 64) Addr (Order Addr) :=
    Pool.doubling p.poolCapacity (dvd_bytes _) hpos
  refine ⟨⟨{}, hwf, ⟨ptr, ?_⟩, hladder, hocc, hin, hstp, hprot⟩, ?_, Nat.le_max_left _ _⟩
  · exact ⟨⟨Pool.new_wf _, fun _ => ⟨0, Pool.new_tight (by omega) (dvd_bytes _)⟩⟩, hindex, hnodup,
      hid, hband, hfind, hsize, hinj, hlive, hlevel⟩
  · show [p.poolCapacity * 64 % 2 ^ 64].sum ≤ _
    rw [List.sum_singleton, Nat.mod_eq_of_lt (by omega)]
    exact Nat.mul_le_mul_right 64 (Nat.le_max_left _ _)

end within

/-- **Memory follows the peak**: with at most `N` orders resting after each call, whatever their
number in all, the pool has at most `3 * N` slots and the table at most `4 * N`, or what they had
at the start. -/
theorem memory_run (p : Params) (hp : p.Valid) {N : ℕ} (hfit : max p.poolCapacity (3 * N) < 2 ^ 57)
    (ops : List Op) (hN : ∀ pre ∈ ops.inits, (run p pre).restingOrders ≤ N) :
    (run p ops).pool.capacity ≤ max p.poolCapacity (3 * N) ∧
      (run p ops).orders.slots.length ≤
        max (IdMap.new p.idMapSlots : IdMap Addr).slots.length (4 * N) := by
  have hcap : p.poolCapacity < 2 ^ 57 := Nat.lt_of_le_of_lt (Nat.le_max_left _ _) hfit
  have hbytes : p.poolCapacity * 64 < 2 ^ 64 := by omega
  have hpos : 0 < Pool.firstSlots 64 p.poolCapacity := by
    rw [Pool.firstSlots, Nat.mod_eq_of_lt hbytes, Nat.mul_div_cancel _ (by decide)]
    exact hp.capacity_pos
  have hfit' : max p.poolCapacity (3 * N) * 64 < 2 ^ 63 := by omega
  have halong : Transition.Along Book.call
      (fun (b : OrderBook) op => (b.call op).1.restingOrders ≤ N) (new p) ops := by
    refine Transition.along_of_split fun pre op post he => ?_
    have hprefix : pre ++ [op] ∈ ops.inits := by
      rw [List.mem_inits, he]
      exact ⟨post, List.append_assoc _ _ _⟩
    have hle := hN _ hprefix
    rwa [run, Transition.finalState_append] at hle
  have hwithin : Within p.poolCapacity hpos (IdMap.new p.idMapSlots : IdMap Addr).slots.length N
      p.config (run p ops) :=
    Transition.inv_finalState (fun b op h hle => h.call hfit' hle) (new_within hp hcap hpos N) halong
  refine ⟨?_, hwithin.bounds.2⟩
  let _ : LawfulAllocator (Pool (Order Addr) 64) Addr (Order Addr) :=
    Pool.doubling p.poolCapacity (dvd_bytes _) hpos
  obtain ⟨F, hrepr⟩ := hwithin.repr
  obtain ⟨ptr, hcore⟩ := hrepr.core
  obtain ⟨n, htight⟩ := hcore.pool_wf.2 (Nat.lt_of_le_of_lt hwithin.bounds.1 hfit')
  exact htight.capacity_le (by decide) hbytes hwithin.bounds.1

/-- Three orders rest at most; the pool starts with a slot for one. -/
theorem memory_run_small :
    let p : Params := { poolCapacity := 1, bandHi := 9, idMapSlots := 2 }
    let b := run p [.submitLimit 1 .ask 5 7 .gtc 3, .submitLimit 2 .ask 6 2 .gtc 3,
      .submitLimit 3 .bid 2 1 .gtc 0, .submitMarket 4 .bid 8 0, .submitLimit 5 .bid 3 1 .gtc 0,
      .cancel 3, .submitLimit 6 .bid 4 1 .gtc 0]
    b.pool.capacity ≤ max 1 (3 * 3) ∧
      b.orders.slots.length ≤ max (IdMap.new 2 : IdMap Addr).slots.length (4 * 3) :=
  memory_run { poolCapacity := 1, bandHi := 9, idMapSlots := 2 }
    ⟨by decide, by decide, by decide, by decide⟩ (N := 3) (by decide) _ (by decide +kernel)

end OrderBook

end Lob
