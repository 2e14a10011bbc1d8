import LimitOrderBook.AuditSound
import LimitOrderBook.Matching
import LimitOrderBook.Reference
import LimitOrderBook.Versions
import LimitOrderBook.Workload

/-! # The differential test

The test of `tests/differential_test.cpp`.  It replays a benchmark workload on the reference engine
and on an engine under test, and compares what the two answer and what they show.  `trace` is both,
after every operation: the return value, the tape, the best prices, the number of resting orders and
the size at every price of either side.

An orderly workload satisfies what the comparison of two engines needs, in whatever state they are
(`Bench.Orderly.admits`), so the test cannot fail: on the workload of every seed, of every length
below `2 ^ 32`, all seven engines have one trace, and the audit of the final engine finds nothing
(`differential_agrees`). -/

namespace Lob

open KeyedQueue

/-! ### What an engine shows -/

structure View where
  bestBid : Int
  bestAsk : Int
  restingOrders : ℕ
  qtyAt : Side → Int → UInt64

def Flat.view (F : Flat) : View where
  bestBid := ((F.side .bid).head?.map Resting.price).getD kNoPrice
  bestAsk := ((F.side .ask).head?.map Resting.price).getD kNoPrice
  restingOrders := F.ids.length
  qtyAt s px := UInt64.ofNat (total (level Resting.price px (F.side s)))

namespace Book

variable {A L I P : Type} [Ladder L A] [Index I A] [Allocator P A (Order A)]

def view (b : Book L I P) : View := ⟨b.best .bid, b.best .ask, b.restingOrders, b.qtyAt⟩

theorem Repr.view [LawfulLadder L A] [LawfulIndex I A] [LawfulAllocator P A (Order A)]
    {c : Config} {b : Book L I P} {F : Flat} (h : Repr c b F) : b.view = F.view := by
  have hqty : b.qtyAt = F.view.qtyAt := by
    funext s px
    exact h.qtyAt s px
  rw [Book.view, h.best, h.best, h.restingOrders, hqty]
  rfl

end Book

namespace NaiveBook

def view (n : NaiveBook) : View := ⟨n.best .bid, n.best .ask, n.restingOrders, n.qtyAt⟩

theorem Sim.view {c : Config} {n : NaiveBook} {F : Flat} (h : Sim c n F) : n.view = F.view := by
  have hqty : n.qtyAt = F.view.qtyAt := by
    funext s px
    exact h.qtyAt s px
  rw [NaiveBook.view, best, best, h.firstKey?, h.firstKey?, h.restingOrders, hqty]
  rfl

def trace (p : Params) (ops : List Op) : List (Answer × View) :=
  Transition.outputs (Transition.observed call view) (new p) ops

end NaiveBook

/-! ### The engines -/

namespace BookV1

def trace (p : Params) (ops : List Op) : List (Answer × View) :=
  Transition.outputs (Transition.observed Book.V1.call Book.view) (new p) ops

end BookV1

/-- An order of `v2` takes 56 bytes. -/
instance slot_pos_v2 : Fact (0 < 56) := ⟨by decide⟩

abbrev BookV2 := Book (TreeLadder Addr) (HashIndex Addr) (Pool (Order Addr) 56)
abbrev BookV3 := Book (TreeLadder Addr) (HashIndex Addr) (Pool (Order Addr) 64)

namespace BookV2

def new (p : Params) : BookV2 where
  bids := TreeLadder.new .bid
  asks := TreeLadder.new .ask
  orders := OrdMap.empty
  stp := p.stp
  pool := Pool.new p.poolCapacity

def trace (p : Params) (ops : List Op) : List (Answer × View) :=
  Transition.outputs (Transition.observed Book.V1.call Book.view) (new p) ops

theorem new_repr (p : Params) : Book.Repr p.treeConfig (new p) {} := by
  have hside : ∀ s, (new p).ladder s = TreeLadder.new s := by
    intro s
    cases s <;> rfl
  refine Book.Repr.of_fresh ?_ ?_ ?_ trivial (fun _ => rfl) rfl (Pool.new_wf _)
    (Pool.new_not_live _) rfl rfl
  · intro s
    rw [hside]
    exact TreeLadder.new_wf s
  · intro s px
    rw [hside]
    exact TreeLadder.new_not_occ s px
  · intro s px
    rfl

end BookV2

namespace BookV3

/-- `v3` is `v2` with orders of 64 bytes. -/
def new (p : Params) : BookV3 := BookV4.new p

def trace (p : Params) (ops : List Op) : List (Answer × View) :=
  Transition.outputs (Transition.observed Book.V1.call Book.view) (new p) ops

end BookV3

namespace BookV4

def trace (p : Params) (ops : List Op) : List (Answer × View) :=
  Transition.outputs (Transition.observed Book.V4.call Book.view) (new p) ops

end BookV4

namespace BookV5

def trace (p : Params) (ops : List Op) : List (Answer × View) :=
  Transition.outputs (Transition.observed Book.V4.call Book.view) (new p) ops

end BookV5

namespace OrderBook

def trace (p : Params) (ops : List Op) : List (Answer × View) :=
  Transition.outputs (Transition.observed Book.call Book.view) (new p) ops

end OrderBook

/-! ### What a run can leave in a book -/

namespace Flat

variable {c : Config} {F : Flat} {op : Op}

theorem Sends.mem_ids {t : Taker} (h : F.Sends c op t) {k : OrderId}
    (hk : k ∈ (t.after c.stp).ids) : k ∈ F.ids ∨ op.newId? = some k := by
  have hswept : ∀ {k}, k ∈ (t.swept c.stp).ids → k ∈ t.book.ids := fun hk => mem_ids_of_walk hk
  have hafter : k = t.id ∨ k ∈ t.book.ids := by
    unfold Taker.after at hk
    split_ifs at hk
    · exact (mem_ids_rest.mp hk).imp_right hswept
    · exact Or.inr (hswept hk)
  cases h with
  | limit => exact hafter.symm.imp_right fun heq => congrArg some heq.symm
  | market => exact hafter.symm.imp_right fun heq => congrArg some heq.symm
  | modify hfind =>
      left
      rcases hafter with rfl | hold
      · obtain ⟨hr, hid⟩ := find?_eq_some hfind
        exact hid ▸ mem_ids_of_mem hr
      · exact (mem_ids_remove.mp hold).1

/-- After a call the orders are old ones, but for the one it brings in. -/
theorem mem_ids_call {k : OrderId} (hk : k ∈ (F.call c op).1.ids) :
    k ∈ F.ids ∨ op.newId? = some k := by
  have hout := F.call_outcome c op
  generalize F.call c op = x at hout hk
  cases hout with
  | refused h => exact Or.inl hk
  | cancelled hid => exact Or.inl (mem_ids_remove.mp hk).1
  | amended hfind hqty hle =>
      rw [ids_amend] at hk
      exact Or.inl hk
  | matched hsend => exact hsend.mem_ids hk

/-- The orders of a book are among those that were brought in. -/
theorem ids_run (c : Config) (ops : List Op) :
    (Transition.finalState (Flat.call c) {} ops).ids ⊆ ops.filterMap Op.newId? := by
  induction ops using List.reverseRecOn with
  | nil => exact List.Subset.refl _
  | append_singleton ops op ih =>
      intro k hk
      rw [Transition.finalState_append] at hk
      rw [List.filterMap_append]
      rcases mem_ids_call hk with hold | hnew
      · exact List.mem_append_left _ (ih hold)
      · refine List.mem_append_right _ (List.mem_filterMap.mpr ⟨op, List.mem_singleton_self _, hnew⟩)

theorem run_wf (c : Config) (ops : List Op) : (Transition.finalState (Flat.call c) {} ops).WF c :=
  Transition.inv_finalState (P := fun _ _ => True) (fun _ op hF _ => hF.call op) (empty_wf c)
    (Transition.along_of_forall _ fun _ _ => trivial)

theorem length_ids_run (c : Config) (ops : List Op) :
    (Transition.finalState (Flat.call c) {} ops).ids.length ≤ ops.length :=
  ((List.subperm_of_subset (run_wf c ops).nodup (ids_run c ops)).length_le).trans
    (List.length_filterMap_le _ _)

/-- What the comparison of two engines needs of an operation, on a book `F`. -/
structure Admits (p : Params) (F : Flat) (op : Op) : Prop where
  names : op.NamesOrder
  fresh : ∀ id ∈ op.newId?, id ∉ F.ids
  priced : op.PricedIn p
  small : F.ids.length < 2 ^ 32

end Flat

namespace Bench

/-- The call of a benchmark operation. -/
def Op.call (op : Op) : Lob.Op :=
  match op.kind with
  | .limit => .submitLimit op.id op.side op.price op.qty op.tif 0
  | .market => .submitMarket op.id op.side op.qty 0
  | .cancel => .cancel op.id
  | .modify => .modify op.id op.price op.qty

/-- The workload of a seed. -/
def workload (seed : UInt64) (n : ℕ) : List Lob.Op :=
  (WorkloadGen.generate Mt19937.next n (WorkloadGen.ofSeed seed)).map Op.call

theorem Op.newId?_call (op : Op) : op.call.newId? = if op.isNew then some op.id else none := by
  cases op with
  | mk id price qty kind side tif => cases kind <;> rfl

theorem filterMap_newId? (ops : List Op) :
    (ops.map Op.call).filterMap Lob.Op.newId? = newIds ops := by
  induction ops with
  | nil => rfl
  | cons op ops ih =>
      have hcons : newIds (op :: ops) = newIds [op] ++ newIds ops := newIds_append [op] ops
      rw [hcons, newIds_singleton, List.map_cons, List.filterMap_cons, Op.newId?_call, ih]
      cases op.isNew <;> rfl

/-- The ids of an orderly workload are distinct, and `0` is none of them. -/
theorem Orderly.nodup_newIds {ops : List Op} (h : Orderly ops) :
    (newIds ops).Nodup ∧ 0 ∉ newIds ops := by
  refine ⟨List.Nodup.of_map UInt64.toNat (by rw [h.numbered]; exact List.nodup_range'), ?_⟩
  intro hzero
  have hmem := List.mem_map_of_mem (f := UInt64.toNat) hzero
  rw [h.numbered, List.mem_range'_1, UInt64.toNat_zero] at hmem
  omega

/-- **An orderly workload can be compared**, in whatever state it has led to. -/
theorem Orderly.admits {ops : List Op} (h : Orderly ops) {p : Params} (hlo : p.bandLo ≤ 8992)
    (hhi : 11008 < p.bandHi) (hlen : ops.length ≤ 2 ^ 32) (c : Config) {pre post : List Lob.Op}
    {op : Lob.Op} (he : ops.map Op.call = pre ++ op :: post) :
    Flat.Admits p (Transition.finalState (Flat.call c) {} pre) op := by
  obtain ⟨pre, rest, rfl, rfl, hrest⟩ := List.map_eq_append_iff.mp he
  obtain ⟨op, post, rfl, rfl, rfl⟩ := List.map_eq_cons_iff.mp hrest
  have hop : op ∈ pre ++ op :: post := List.mem_append_right _ List.mem_cons_self
  have hshaped := h.shaped op hop
  obtain ⟨hnodup, hzero⟩ := h.nodup_newIds
  have hids : newIds (pre ++ op :: post) = newIds pre ++ (newIds [op] ++ newIds post) := by
    rw [newIds_append, ← newIds_append [op] post]
    rfl
  constructor
  · have hne : op.isNew = true → op.id ≠ 0 := fun hnew h0 => hzero (h0 ▸ mem_newIds hop hnew)
    cases op with
    | mk id price qty kind side tif =>
        cases kind with
        | limit => exact hne rfl
        | market => exact hne rfl
        | cancel => trivial
        | modify => trivial
  · intro id hid hmem
    rw [Op.newId?_call] at hid
    split_ifs at hid with hnew
    · obtain rfl := Option.some.inj hid
      have hold := Flat.ids_run c _ hmem
      rw [filterMap_newId?] at hold
      rw [hids, List.nodup_append] at hnodup
      refine hnodup.2.2 op.id hold op.id ?_ rfl
      rw [newIds_singleton, if_pos hnew]
      exact List.mem_append_left _ (List.mem_singleton_self _)
    · cases hid
  · have hreach : op.isPriced = true → p.inBand op.price = true := by
      intro hpriced
      have hbounds := hshaped.price hpriced
      rw [Params.inBand, Bool.and_eq_true, decide_eq_true_eq, decide_eq_true_eq]
      omega
    intro px hpx
    cases op with
    | mk id price qty kind side tif =>
        cases kind with
        | limit =>
            obtain rfl := Option.some.inj hpx
            exact Or.inl (hreach rfl)
        | market => cases hpx
        | cancel => cases hpx
        | modify =>
            obtain rfl := Option.some.inj hpx
            exact Or.inl (hreach rfl)
  · have hpre := Flat.length_ids_run c (pre.map Op.call)
    rw [List.length_map] at hpre
    rw [List.length_append, List.length_cons] at hlen
    omega

end Bench

/-! ### The test cannot fail -/

section agree

variable {p : Params} {ops : List Op} {c : Config}

/-- An engine that does what the flat book does shows what the flat book shows. -/
theorem trace_eq_flat {σ : Type} {step : σ → Op → σ × Answer} {view : σ → View}
    {R : σ → Flat → Prop} {b : σ}
    (hstep : ∀ b F op, R b F → F.Admits p op →
      (step b op).2 = (Flat.call c F op).2 ∧ R (step b op).1 (Flat.call c F op).1)
    (hview : ∀ b F, R b F → view b = F.view) (hb : R b {})
    (hops : ∀ pre op post, ops = pre ++ op :: post →
      (Transition.finalState (Flat.call c) {} pre).Admits p op) :
    Transition.outputs (Transition.observed step view) b ops =
      Transition.outputs (Transition.observed (Flat.call c) Flat.view) {} ops := by
  refine (Transition.observed_eq_of_sim (R := fun F b => R b F) (fun F b op h hop => ?_)
    (fun F b h => (hview b F h).symm) hb hops).symm
  obtain ⟨hans, hnext⟩ := hstep b F op h hop
  exact ⟨hans.symm, hnext⟩

/-- A run of operations that can be compared in the states of the flat book. -/
def Compares (p : Params) (c : Config) (ops : List Op) : Prop :=
  ∀ pre op post, ops = pre ++ op :: post → (Transition.finalState (Flat.call c) {} pre).Admits p op

theorem NaiveBook.trace_eq (hp : p.Valid) (hstp : p.stp = .none) (hprot : 0 ≤ p.protection)
    (hfit : p.bandHi + p.protection ≤ kMaxPrice) (hops : Compares p p.config ops) :
    NaiveBook.trace p ops =
      Transition.outputs (Transition.observed (Flat.call p.config) Flat.view) {} ops := by
  have hband := Params.band hp hstp hprot hfit
  refine trace_eq_flat (R := fun n F => NaiveBook.Sim p.config n F ∧ F.WF p.config) ?_
    (fun n F h => h.1.view) ⟨NaiveBook.new_sim p, Flat.empty_wf _⟩ hops
  rintro n F op ⟨hsim, hwf⟩ hop
  obtain ⟨hans, hnext⟩ := hsim.call hwf hband hop.names hop.fresh hop.priced hop.small
  exact ⟨hans, hnext, hwf.call op⟩

theorem OrderBook.trace_eq (hp : p.Valid) (hops : Compares p p.config ops) :
    OrderBook.trace p ops =
      Transition.outputs (Transition.observed (Flat.call p.config) Flat.view) {} ops :=
  trace_eq_flat (R := Book.Repr p.config) (fun _ _ op h _ => h.call op) (fun _ _ h => h.view)
    (OrderBook.new_repr hp) hops

section versions

variable {L I P A : Type} [Ladder L A] [Index I A] [Allocator P A (Order A)]
  [LawfulLadder L A] [LawfulIndex I A] [LawfulAllocator P A (Order A)]
  {b : Book L I P}

/-- The engines on a search tree. -/
theorem trace_eq_of_tree (hp : p.Valid) {call : Book L I P → Op → Book L I P × Answer}
    (hcall : ∀ {b F op}, Book.Repr p.treeConfig b F → op.NamesOrder →
      Book.Agrees p.treeConfig (call b op) (Flat.call p.treeConfig F op))
    (hb : Book.Repr p.treeConfig b {}) (hops : Compares p p.flatConfig ops) :
    Transition.outputs (Transition.observed call Book.view) b ops =
      Transition.outputs (Transition.observed (Flat.call p.flatConfig) Flat.view) {} ops := by
  refine trace_eq_flat (R := Book.Repr p.treeConfig) (fun b F op h hop => ?_) (fun _ _ h => h.view)
    hb hops
  rw [← Params.treeConfig_call hp hop.priced F]
  exact hcall h hop.names

end versions

end agree

/-- The engine that the others are compared with is any of them: all have one trace. -/
structure AllAgree (p : Params) (ops : List Op) : Prop where
  naive : NaiveBook.trace p ops = OrderBook.trace p ops
  versions : p.protection = 0 → ∀ t ∈ [BookV1.trace p ops, BookV2.trace p ops, BookV3.trace p ops,
    BookV4.trace p ops, BookV5.trace p ops], t = OrderBook.trace p ops
  audit : ∀ pre ∈ ops.inits, (OrderBook.run p pre).checkInvariants = none

theorem AllAgree.of_compares {p : Params} (hp : p.Valid) (hstp : p.stp = .none)
    (hprot : 0 ≤ p.protection) (hfit : p.bandHi + p.protection ≤ kMaxPrice) {ops : List Op}
    (hops : ∀ c, Compares p c ops) : AllAgree p ops := by
  have hfinal := OrderBook.trace_eq hp (hops p.config)
  refine ⟨(NaiveBook.trace_eq hp hstp hprot hfit (hops _)).trans hfinal.symm, fun hzero t ht => ?_,
    fun pre _ => OrderBook.checkInvariants_of_repr (OrderBook.run_repr hp pre).2⟩
  have hconfig : p.config = p.flatConfig := by rw [Params.config, hzero, Params.flatConfig]
  rw [hfinal, hconfig]
  simp only [List.mem_cons, List.not_mem_nil, or_false] at ht
  rcases ht with rfl | rfl | rfl | rfl | rfl
  · exact trace_eq_of_tree hp (fun h hop => h.callV1 rfl hop) (BookV1.new_repr p) (hops _)
  · exact trace_eq_of_tree hp (fun h hop => h.callV1 rfl hop) (BookV2.new_repr p) (hops _)
  · exact trace_eq_of_tree hp (fun h hop => h.callV1 rfl hop) (BookV4.new_repr p) (hops _)
  · exact trace_eq_of_tree hp (fun h hop => h.callV4 rfl hop) (BookV4.new_repr p) (hops _)
  · exact trace_eq_flat (R := Book.Repr p.flatConfig) (fun _ _ _ h hop => h.callV4 rfl hop.names)
      (fun _ _ h => h.view) (BookV5.new_repr hp.apart) (hops _)

/-- **The differential test cannot fail**: on the workload of every seed, all engines give the same
answers, and show the same best prices, sizes and counts after every operation. -/
theorem differential_agrees (p : Params) (hp : p.Valid) (hstp : p.stp = .none)
    (hlo : p.bandLo ≤ 8992) (hhi : 11008 < p.bandHi) (hprot : 0 ≤ p.protection)
    (hfit : p.bandHi + p.protection ≤ kMaxPrice) (seed : UInt64) (n : ℕ) (hn : n ≤ 2 ^ 32) :
    AllAgree p (Bench.workload seed n) := by
  have horderly := (Bench.WorkloadGen.inv_generate Mt19937.next (Mt19937.ofSeed seed) n
    (by omega)).orderly
  have hlen := Bench.WorkloadGen.length_generate Mt19937.next (Bench.WorkloadGen.ofSeed seed) n
  exact .of_compares hp hstp hprot hfit fun c _ _ _ he =>
    horderly.admits hlo hhi (hlen.le.trans hn) c he

/-- The books of the test with market protection. -/
theorem differential_agrees_protected :
    AllAgree { protection := 3 } (Bench.workload 42 200000) :=
  differential_agrees { protection := 3 } ⟨by decide, by decide, by decide, by decide⟩ rfl
    (by decide) (by decide) (by decide) (by decide) 42 200000 (by decide)

end Lob
