import LimitOrderBook.Barrier
import LimitOrderBook.Differential
import LimitOrderBook.Growth

/-! # The sharded benchmark

`run_benchmark_sharded` of `bench/main.cpp`: one engine a thread, nothing shared but the start
barrier and the count of allocations of `bench/alloc_count.cpp`, which every call of `operator new`
raises by one.  A thread is `run_ops_gated` of `bench/harness.hpp` on the workload of its own seed;
`Barrier` is how the threads and the main thread run in any interleaving.

What a call allocates is a parameter.  Whatever it is, the count reported is that of the measured
calls of all shards and nothing else, and the books are those of the workloads (`sharded_run`).
The final engine allocates in a call only where the pool or the id map grows, and neither ever
shrinks: the count reported is zero exactly if nothing grew after the warm-up (`sharded_zero_iff`). -/

namespace Lob

namespace Bench

/-- The options of the benchmark that the sharded mode reads. -/
structure ShardConfig where
  ops : ℕ := 1000000
  warmup : ℕ := 100000
  seed : UInt64 := 42
  threads : ℕ := 1
  pool : ℕ := 2 ^ 17
  idmap : ℕ := 2 ^ 18
deriving DecidableEq, Repr

namespace ShardConfig

variable (cfg : ShardConfig)

/-- `make_book` of the final engine. -/
def params : Params where
  stp := .none
  poolCapacity := cfg.pool
  bandLo := 1
  bandHi := 2 ^ 15
  idMapSlots := cfg.idmap

/-- The operations of a shard. -/
def shardOps (t : ℕ) : List Op :=
  WorkloadGen.generate Mt19937.next (cfg.warmup + cfg.ops)
    (WorkloadGen.ofSeed (cfg.seed + UInt64.ofNat t))

end ShardConfig

section run

variable {B : Type}

/-- `dispatch` of an engine: the book after it. -/
def dispatch (call : B → Lob.Op → B × Answer) (b : B) (op : Op) : B := (call b op.call).1

/-- What `run_ops_gated` does on a fresh book: `warmup` operations before the gate and the others
after it.  `setup` is what making the book and the buffer of samples allocates. -/
def runOpsGated (call : B → Lob.Op → B × Answer) (book : B) (setup : ℕ) (allocs : B → Op → ℕ)
    (ops : List Op) (warmup : ℕ) : Barrier.Job B Op where
  init := book
  step := dispatch call
  setup := setup
  cost := allocs
  warmup := ops.take warmup
  measured := ops.drop warmup

/-- The shards of the benchmark. -/
def shards (cfg : ShardConfig) (call : B → Lob.Op → B × Answer) (book : B) (setup : ℕ)
    (allocs : B → Op → ℕ) (t : Fin cfg.threads) : Barrier.Job B Op :=
  runOpsGated call book setup allocs (cfg.shardOps t) cfg.warmup

/-- The state of the benchmark after some steps of its threads in some order; `spawn` is what
creating each thread allocates, `n` what was allocated before. -/
def runBenchmarkSharded (cfg : ShardConfig) (call : B → Lob.Op → B × Answer) (book : B)
    (setup : ℕ) (allocs : B → Op → ℕ) (spawn : Fin cfg.threads → ℕ) (n : ℕ)
    (moves : List (Barrier.Move cfg.threads)) : Barrier.Group cfg.threads B Op :=
  (Barrier.Group.start (shards cfg call book setup allocs) spawn n).run
    (shards cfg call book setup allocs) moves

variable {cfg : ShardConfig} {call : B → Lob.Op → B × Answer} {book : B} {setup : ℕ}
  {allocs : B → Op → ℕ}

theorem foldl_dispatch (call : B → Lob.Op → B × Answer) : ∀ (ops : List Op) (b : B),
    ops.foldl (dispatch call) b = Transition.finalState call b (ops.map Op.call)
  | [], _ => rfl
  | _ :: ops, _ => foldl_dispatch call ops _

/-- A shard ends with the book of its workload. -/
theorem shards_final (t : Fin cfg.threads) :
    (shards cfg call book setup allocs t).final =
      Transition.finalState call book
        (workload (cfg.seed + UInt64.ofNat t) (cfg.warmup + cfg.ops)) := by
  have hwhole : (shards cfg call book setup allocs t).final =
      ((cfg.shardOps t).take cfg.warmup ++ (cfg.shardOps t).drop cfg.warmup).foldl
        (dispatch call) book := List.foldl_append.symm
  rw [hwhole, List.take_append_drop, foldl_dispatch]
  rfl

end run

/-- **The start barrier.**  In every interleaving of the main thread and the shards, for every
engine and whatever its calls allocate: nothing is measured while a shard warms up, the count
reported is what the measured calls of all shards allocate, and then every book is the book of its
workload; and if no thread is kept waiting for ever, the benchmark ends. -/
theorem sharded_run {B : Type} (cfg : ShardConfig) (call : B → Lob.Op → B × Answer) (book : B)
    (setup : ℕ) (allocs : B → Op → ℕ) (spawn : Fin cfg.threads → ℕ) (n : ℕ) :
    (∀ moves : List (Barrier.Move cfg.threads),
      let g := runBenchmarkSharded cfg call book setup allocs spawn n moves
      (∀ t u, (g.workers t).phase = .measuring ∨ (g.workers t).phase = .done →
        (g.workers u).phase ≠ .warming) ∧
      ∀ count, g.leader = .finished count →
        count = ∑ t, (shards cfg call book setup allocs t).total ∧
        ∀ t, (g.workers t).state = Transition.finalState call book
          (workload (cfg.seed + UInt64.ofNat t) (cfg.warmup + cfg.ops))) ∧
    ∀ schedule : ℕ → Barrier.Move cfg.threads, Barrier.Group.Fair schedule →
      ∃ k count, (runBenchmarkSharded cfg call book setup allocs spawn n
        ((List.range k).map schedule)).leader = .finished count := by
  have hstart := Barrier.Group.start_inv (shards cfg call book setup allocs) spawn n
  refine ⟨fun moves => ⟨fun t u ht => ?_, fun count hcount => ?_⟩, fun schedule hfair => ?_⟩
  · exact ((hstart.run moves).warm_of_passed ht).2 u
  · obtain ⟨hsum, hbooks⟩ := (hstart.run moves).result hcount
    exact ⟨hsum, fun t => (hbooks t).trans (shards_final t)⟩
  · exact hstart.finishes hfair

/-- Two shards of which every call allocates once, and which run in turn. -/
theorem sharded_run_inTurn :
    ∃ k count, (runBenchmarkSharded { threads := 2 } Book.call
      (OrderBook.new (ShardConfig.params { threads := 2 })) 3 (fun _ _ => 1) (fun _ => 2) 0
      ((List.range k).map (Barrier.Group.roundRobin 2))).leader = .finished count :=
  (sharded_run { threads := 2 } Book.call _ 3 (fun _ _ => 1) (fun _ => 2) 0).2 _
    (Barrier.Group.roundRobin_fair 2)

/-! ### A count of zero -/

open OrderBook

/-- The calls that take the book `b` to `b'` left the pool and the id map at their sizes. -/
def NoGrowth (b b' : OrderBook) : Prop :=
  b'.poolGrowCount = b.poolGrowCount ∧ b'.idMapGrowCount = b.idMapGrowCount

instance (b b' : OrderBook) : Decidable (NoGrowth b b') := inferInstanceAs (Decidable (_ ∧ _))

/-- Operations cost nothing exactly if nothing grows while they run. -/
theorem spend_eq_zero_iff {j : Barrier.Job OrderBook Op} (hstep : j.step = dispatch Book.call)
    (hcost : ∀ b op, j.cost b op = 0 ↔ NoGrowth b (dispatch Book.call b op)) {c : Config} :
    ∀ (ops : List Op) {b : OrderBook} {F : Flat}, Book.Repr c b F →
      (j.spend b ops = 0 ↔ NoGrowth b (Transition.finalState Book.call b (ops.map Op.call)))
  | [], _, _, _ => ⟨fun _ => ⟨rfl, rfl⟩, fun _ => rfl⟩
  | op :: ops, b, F, h => by
      have hrepr := (h.call op.call).2
      have ih := spend_eq_zero_iff hstep hcost ops hrepr
      have hcall := grown_call h op.call
      have hrun := grown_run hrepr (ops.map Op.call)
      rw [Barrier.Job.spend, Nat.add_eq_zero_iff, hcost, hstep]
      change NoGrowth b (b.call op.call).1 ∧ j.spend (b.call op.call).1 ops = 0 ↔
        NoGrowth b (Transition.finalState Book.call (b.call op.call).1 (ops.map Op.call))
      rw [ih]
      -- the counts only rise, so they end where they began if they never do
      unfold NoGrowth
      omega

/-- One allocation in each call in which something grows. -/
def growthAllocs (b : OrderBook) (op : Op) : ℕ :=
  if NoGrowth b (dispatch Book.call b op) then 0 else 1

theorem growthAllocs_eq_zero (b : OrderBook) (op : Op) :
    growthAllocs b op = 0 ↔ NoGrowth b (dispatch Book.call b op) := by
  unfold growthAllocs
  split_ifs with h <;> simp [h]

/-- **What a reported count of zero says.**  Calls of the final engine allocate where the pool or
the id map grows and nowhere else; then in every interleaving the benchmark reports no allocation
exactly if on no shard either structure grew after the warm-up. -/
theorem sharded_zero_iff (cfg : ShardConfig) (hpool : 1 ≤ cfg.pool) (hidmap : cfg.idmap ≤ 2 ^ 63)
    (setup : ℕ) (allocs : OrderBook → Op → ℕ)
    (hallocs : ∀ b op, allocs b op = 0 ↔ NoGrowth b (dispatch Book.call b op))
    (spawn : Fin cfg.threads → ℕ) (n : ℕ) (moves : List (Barrier.Move cfg.threads)) (count : ℕ)
    (hcount : (runBenchmarkSharded cfg Book.call (OrderBook.new cfg.params) setup allocs spawn n
      moves).leader = .finished count) :
    count = 0 ↔ ∀ t : Fin cfg.threads,
      NoGrowth (run cfg.params
          ((workload (cfg.seed + UInt64.ofNat t) (cfg.warmup + cfg.ops)).take cfg.warmup))
        (run cfg.params (workload (cfg.seed + UInt64.ofNat t) (cfg.warmup + cfg.ops))) := by
  have hp : cfg.params.Valid :=
    ⟨Int.le_refl 1, Int.ofNat_le.mpr (by decide : 1 ≤ 2 ^ 15), hpool, hidmap⟩
  have hstart := Barrier.Group.start_inv
    (shards cfg Book.call (OrderBook.new cfg.params) setup allocs) spawn n
  have htotal : ∀ t : Fin cfg.threads,
      (shards cfg Book.call (OrderBook.new cfg.params) setup allocs t).total = 0 ↔
        NoGrowth (run cfg.params
            ((workload (cfg.seed + UInt64.ofNat t) (cfg.warmup + cfg.ops)).take cfg.warmup))
          (run cfg.params (workload (cfg.seed + UInt64.ofNat t) (cfg.warmup + cfg.ops))) := by
    intro t
    have hops : workload (cfg.seed + UInt64.ofNat t) (cfg.warmup + cfg.ops) =
        (cfg.shardOps t).map Op.call := rfl
    have hwarm : (shards cfg Book.call (OrderBook.new cfg.params) setup allocs t).warm =
        run cfg.params (((cfg.shardOps t).take cfg.warmup).map Op.call) := foldl_dispatch _ _ _
    have hrepr := (run_repr hp (((cfg.shardOps t).take cfg.warmup).map Op.call)).2
    rw [Barrier.Job.total, hwarm, spend_eq_zero_iff rfl hallocs _ hrepr, run,
      ← Transition.finalState_append, ← List.map_append]
    show NoGrowth _ (run cfg.params
      (((cfg.shardOps t).take cfg.warmup ++ (cfg.shardOps t).drop cfg.warmup).map Op.call)) ↔ _
    rw [List.take_append_drop, hops, ← List.map_take]
    rfl
  rw [((hstart.run moves).result hcount).1, Finset.sum_eq_zero_iff]
  exact ⟨fun h t => (htotal t).mp (h t (Finset.mem_univ t)), fun h t _ => (htotal t).mpr (h t)⟩

/-- Eight shards that run in turn, with the default options. -/
theorem sharded_zero_iff_eight :
    ∃ moves count,
      (runBenchmarkSharded { threads := 8 } Book.call
        (OrderBook.new (ShardConfig.params { threads := 8 })) 3 growthAllocs (fun _ => 2) 0
        moves).leader = .finished count ∧
      (count = 0 ↔ ∀ t : Fin 8,
        NoGrowth
          (run (ShardConfig.params { threads := 8 })
            ((workload (42 + UInt64.ofNat t) (100000 + 1000000)).take 100000))
          (run (ShardConfig.params { threads := 8 })
            (workload (42 + UInt64.ofNat t) (100000 + 1000000)))) := by
  obtain ⟨k, count, hcount⟩ := (Barrier.Group.start_inv
    (shards { threads := 8 } Book.call (OrderBook.new (ShardConfig.params { threads := 8 })) 3
      growthAllocs) (fun _ => 2) 0).finishes (Barrier.Group.roundRobin_fair 8)
  exact ⟨_, count, hcount, sharded_zero_iff { threads := 8 } (by decide) (by decide) 3 growthAllocs
    growthAllocs_eq_zero (fun _ => 2) 0 _ count hcount⟩

end Bench

end Lob
