import Mathlib.Algebra.GroupWithZero.Nat
import Mathlib.Algebra.Order.BigOperators.Group.Finset
import Mathlib.Algebra.Order.Group.Nat
import Mathlib.Data.Fintype.BigOperators
import Mathlib.Tactic.Common

/-! # A start barrier

A leader creates `T` threads.  Each sets up, warms up and parks; when all have arrived the leader
zeroes a counter that every thread adds to as it works, opens the gate and joins the threads one
after another.  A state takes one atomic step of one thread at a time, in any order: a load or a
store of what is shared, one increment, or one input of a thread's own work.

`Inv` holds in every state that is reached: nothing is measured while anybody warms up
(`Inv.warm_of_passed`), and what the leader reads at the end is what the measured inputs cost
(`Inv.result`).  Every step that changes the state lowers `Group.left` by one, and some thread can
take such a step until the leader is done, so every fair schedule ends (`finishes`). -/

namespace Barrier

/-- The work of one thread: `cost` is what an input adds to the counter, `setup` what setting up
adds. -/
structure Job (σ ι : Type) where
  init : σ
  step : σ → ι → σ
  setup : ℕ
  cost : σ → ι → ℕ
  warmup : List ι
  measured : List ι

inductive Phase
  | warming
  | parked
  | measuring
  | done
deriving DecidableEq, Repr

/-- A thread: the inputs left in its phase, and the increments it owes for the last of them. -/
structure Worker (σ ι : Type) where
  phase : Phase
  state : σ
  todo : List ι
  owed : ℕ

/-- What a step of a thread does to what is shared. -/
inductive Effect
  | quiet
  | count
  | arrive
deriving DecidableEq, Repr

/-- The leader: `costs` are the increments before each of the threads that are yet to be created. -/
inductive Leader
  | spawning (costs : List ℕ)
  | waiting
  | zeroing
  | opening
  | joining (k : ℕ)
  | finished (count : ℕ)
deriving DecidableEq, Repr

structure Group (T : ℕ) (σ ι : Type) where
  spawned : ℕ := 0
  ready : ℕ := 0
  go : Bool := false
  counter : ℕ
  leader : Leader
  workers : Fin T → Worker σ ι

/-- The thread that takes the next step. -/
inductive Move (T : ℕ)
  | leader
  | worker (t : Fin T)
deriving DecidableEq, Repr

variable {T : ℕ} {σ ι : Type}

namespace Job

variable (j : Job σ ι)

/-- What the inputs cost from a state on. -/
def spend (s : σ) : List ι → ℕ
  | [] => 0
  | i :: is => j.cost s i + spend (j.step s i) is

/-- The state after the warm-up. -/
def warm : σ := j.warmup.foldl j.step j.init

/-- The state in the end. -/
def final : σ := j.measured.foldl j.step j.warm

/-- What the measured inputs cost. -/
def total : ℕ := j.spend j.warm j.measured

def start : Worker σ ι := ⟨.warming, j.init, j.warmup, j.setup⟩

end Job

def Effect.counts : Effect → ℕ
  | .count => 1
  | _ => 0

def Effect.arrivals : Effect → ℕ
  | .arrive => 1
  | _ => 0

/-! ### One thread -/

namespace Worker

variable (j : Job σ ι)

/-- The next step: what is owed first, then an input, and at the end of a phase its end. -/
def next (go : Bool) : Worker σ ι → Worker σ ι × Effect
  | ⟨ph, s, todo, owed + 1⟩ => (⟨ph, s, todo, owed⟩, .count)
  | ⟨.warming, s, i :: is, 0⟩ => (⟨.warming, j.step s i, is, j.cost s i⟩, .quiet)
  | ⟨.warming, s, [], 0⟩ => (⟨.parked, s, [], 0⟩, .arrive)
  | ⟨.parked, s, todo, 0⟩ =>
      if go then (⟨.measuring, s, j.measured, 0⟩, .quiet) else (⟨.parked, s, todo, 0⟩, .quiet)
  | ⟨.measuring, s, i :: is, 0⟩ => (⟨.measuring, j.step s i, is, j.cost s i⟩, .quiet)
  | ⟨.measuring, s, [], 0⟩ => (⟨.done, s, [], 0⟩, .quiet)
  | ⟨.done, s, todo, 0⟩ => (⟨.done, s, todo, 0⟩, .quiet)

/-- What is left of a phase leads to the state the phase ends in. -/
def Good (w : Worker σ ι) : Prop :=
  match w.phase with
  | .warming => w.todo.foldl j.step w.state = j.warm
  | .parked => w.owed = 0 ∧ w.state = j.warm
  | .measuring => w.todo.foldl j.step w.state = j.final
  | .done => w.owed = 0 ∧ w.state = j.final

def arrived (w : Worker σ ι) : ℕ := if w.phase = .warming then 0 else 1

/-- What the thread has yet to add to the counter for its measured inputs. -/
def due (w : Worker σ ι) : ℕ :=
  match w.phase with
  | .warming | .parked => j.total
  | .measuring => w.owed + j.spend w.state w.todo
  | .done => 0

/-- The steps left that change the thread. -/
def left (w : Worker σ ι) : ℕ :=
  match w.phase with
  | .warming =>
      w.owed + w.todo.length + j.spend w.state w.todo + 1 + (j.measured.length + j.total + 2)
  | .parked => j.measured.length + j.total + 2
  | .measuring => w.owed + w.todo.length + j.spend w.state w.todo + 1
  | .done => 0

variable {j} {go : Bool} {w w' : Worker σ ι} {e : Effect}

theorem start_good : (j.start).Good j := rfl

/-- **What one step of a thread can do.** -/
structure Steps (j : Job σ ι) (go : Bool) (w w' : Worker σ ι) (e : Effect) : Prop where
  good : w'.Good j
  arrived : w'.arrived = w.arrived + e.arrivals
  due : w'.due j + (if w.phase = .warming then 0 else e.counts) = w.due j
  shut : go = false → w.phase = .warming ∨ w.phase = .parked →
    w'.phase = .warming ∨ w'.phase = .parked
  done : w.phase = .done → w'.phase = .done
  left : w' = w ∧ e = .quiet ∧ (w.phase = .parked ∧ go = false ∨ w.phase = .done) ∨
    w'.left j + 1 = w.left j

theorem next_steps (go : Bool) (h : w.Good j) :
    Steps j go w (w.next j go).1 (w.next j go).2 := by
  obtain ⟨ph, s, todo, owed⟩ := w
  cases owed with
  | succ owed =>
      cases ph with
      | warming =>
          refine ⟨h, rfl, rfl, fun _ hp => hp, fun hd => hd, Or.inr ?_⟩
          simp only [next, left]
          omega
      | parked => exact absurd h.1 (Nat.succ_ne_zero owed)
      | measuring =>
          refine ⟨h, rfl, ?_, fun _ hp => hp, fun hd => hd, Or.inr ?_⟩
          · simp only [next, due, Effect.counts, reduceCtorEq, if_false]
            omega
          · simp only [next, left]
            omega
      | done => exact absurd h.1 (Nat.succ_ne_zero owed)
  | zero =>
      cases ph with
      | warming =>
          cases todo with
          | nil =>
              refine ⟨⟨rfl, h⟩, rfl, rfl, fun _ _ => Or.inr rfl, fun hd => Phase.noConfusion hd,
                Or.inr ?_⟩
              simp only [next, left, Job.spend, List.length_nil]
              omega
          | cons i is =>
              refine ⟨h, rfl, rfl, fun _ hp => hp, fun hd => hd, Or.inr ?_⟩
              simp only [next, left, Job.spend, List.length_cons]
              omega
      | parked =>
          cases go with
          | false =>
              exact ⟨h, rfl, rfl, fun _ hp => hp, fun hd => hd,
                Or.inl ⟨rfl, rfl, Or.inl ⟨rfl, rfl⟩⟩⟩
          | true =>
              obtain rfl : s = j.warm := h.2
              refine ⟨rfl, rfl, ?_, fun hgo => Bool.noConfusion hgo,
                fun hd => Phase.noConfusion hd, Or.inr ?_⟩
              · exact (Nat.add_zero _).trans (Nat.zero_add _)
              · simp only [next, if_true, left, Job.total]
                omega
      | measuring =>
          cases todo with
          | nil =>
              refine ⟨⟨rfl, h⟩, rfl, rfl, fun _ hp => ?_, fun _ => rfl, Or.inr ?_⟩
              · rcases hp with hp | hp <;> cases hp
              · simp only [next, left, Job.spend, List.length_nil]
          | cons i is =>
              refine ⟨h, rfl, ?_, fun _ hp => hp, fun hd => hd, Or.inr ?_⟩
              · simp only [next, due, Job.spend, Effect.counts, reduceCtorEq, if_false]
                omega
              · simp only [next, left, Job.spend, List.length_cons]
                omega
      | done => exact ⟨h, rfl, rfl, fun _ hp => hp, fun hd => hd, Or.inl ⟨rfl, rfl, Or.inr rfl⟩⟩

end Worker

/-! ### All threads -/

namespace Group

variable (job : Fin T → Job σ ι)

/-- The state of a group before its first thread is created; `n` is what the counter is at. -/
def start (spawn : Fin T → ℕ) (n : ℕ) : Group T σ ι where
  counter := n
  leader := .spawning (List.ofFn spawn)
  workers t := (job t).start

/-- A thread takes a step. -/
def put (g : Group T σ ι) (t : Fin T) (x : Worker σ ι × Effect) : Group T σ ι :=
  { g with
    workers := Function.update g.workers t x.1
    counter := g.counter + x.2.counts
    ready := g.ready + x.2.arrivals }

/-- A thread that has been created takes a step. -/
def work (g : Group T σ ι) (t : Fin T) : Group T σ ι :=
  if t.val < g.spawned then g.put t ((g.workers t).next (job t) g.go) else g

/-- The leader takes a step; while it waits for the others the step changes nothing. -/
def lead (g : Group T σ ι) : Group T σ ι :=
  match g.leader with
  | .spawning [] => { g with leader := .waiting }
  | .spawning (0 :: costs) => { g with leader := .spawning costs, spawned := g.spawned + 1 }
  | .spawning ((n + 1) :: costs) =>
      { g with leader := .spawning (n :: costs), counter := g.counter + 1 }
  | .waiting => if g.ready < T then g else { g with leader := .zeroing }
  | .zeroing => { g with leader := .opening, counter := 0 }
  | .opening => { g with leader := .joining 0, go := true }
  | .joining k =>
      if h : k < T then
        if (g.workers ⟨k, h⟩).phase = .done then { g with leader := .joining (k + 1) } else g
      else { g with leader := .finished g.counter }
  | .finished _ => g

def next (g : Group T σ ι) : Move T → Group T σ ι
  | .leader => g.lead
  | .worker t => g.work job t

/-- The state after some steps. -/
def run (g : Group T σ ι) (moves : List (Move T)) : Group T σ ι := moves.foldl (next job) g

/-! ### What holds in every state -/

/-- Nobody has passed the gate. -/
structure Shut (g : Group T σ ι) : Prop where
  go : g.go = false
  phase : ∀ t, (g.workers t).phase = .warming ∨ (g.workers t).phase = .parked

/-- Nobody warms up any more. -/
def Warm (g : Group T σ ι) : Prop := g.spawned = T ∧ ∀ t, (g.workers t).phase ≠ .warming

/-- The counter and what is due make the whole. -/
def Counted (g : Group T σ ι) : Prop :=
  g.counter + ∑ t, (g.workers t).due (job t) = ∑ t, (job t).total

/-- The first `k` threads have been joined. -/
def Joined (g : Group T σ ι) (k : ℕ) : Prop := ∀ t : Fin T, t.val < k → (g.workers t).phase = .done

/-- What holds at each step of the leader. -/
def Stage (g : Group T σ ι) : Leader → Prop
  | .spawning costs => g.Shut ∧ g.spawned + costs.length = T
  | .waiting => g.Shut ∧ g.spawned = T
  | .zeroing => g.Shut ∧ g.Warm
  | .opening => g.Shut ∧ g.Warm ∧ g.Counted job
  | .joining k => g.go = true ∧ g.Warm ∧ g.Counted job ∧ k ≤ T ∧ g.Joined k
  | .finished n => g.go = true ∧ g.Warm ∧ g.Counted job ∧ g.Joined T ∧ n = g.counter

structure Inv (g : Group T σ ι) : Prop where
  good : ∀ t, (g.workers t).Good (job t)
  ready : g.ready = ∑ t, (g.workers t).arrived
  stage : g.Stage job g.leader

variable {job} {g : Group T σ ι}

theorem start_inv (job : Fin T → Job σ ι) (spawn : Fin T → ℕ) (n : ℕ) :
    (start job spawn n).Inv job where
  good _ := Worker.start_good
  ready := (Finset.sum_eq_zero fun _ _ => rfl).symm
  stage := ⟨⟨rfl, fun _ => Or.inl rfl⟩, by simp [start]⟩

@[simp]
theorem put_self (t : Fin T) (x : Worker σ ι × Effect) : (g.put t x).workers t = x.1 :=
  Function.update_self ..

theorem put_of_ne {t u : Fin T} (x : Worker σ ι × Effect) (h : u ≠ t) :
    (g.put t x).workers u = g.workers u := Function.update_of_ne h ..

/-- What a step of one thread changes of a sum over all of them. -/
theorem sum_put (f : Fin T → Worker σ ι → ℕ) (t : Fin T) (x : Worker σ ι × Effect) :
    ∑ u, f u ((g.put t x).workers u) + f t (g.workers t) = ∑ u, f u (g.workers u) + f t x.1 := by
  have hrest : ∑ u ∈ Finset.univ.erase t, f u ((g.put t x).workers u) =
      ∑ u ∈ Finset.univ.erase t, f u (g.workers u) :=
    Finset.sum_congr rfl fun u hu => by
      rw [put_of_ne x (Finset.ne_of_mem_erase hu)]
  have hnew := Finset.add_sum_erase Finset.univ (fun u => f u ((g.put t x).workers u))
    (Finset.mem_univ t)
  have hold := Finset.add_sum_erase Finset.univ (fun u => f u (g.workers u)) (Finset.mem_univ t)
  simp only [put_self, hrest] at hnew hold
  omega

section put

variable {t : Fin T} {x : Worker σ ι × Effect}

/-- What holds of every thread, and of the one that took a step. -/
theorem put_forall {P : Fin T → Worker σ ι → Prop} (h : ∀ u, P u (g.workers u)) (ht : P t x.1)
    (u : Fin T) : P u ((g.put t x).workers u) := by
  by_cases hu : u = t
  · subst hu
    rw [put_self]
    exact ht
  · rw [put_of_ne x hu]
    exact h u

variable (hsteps : Worker.Steps (job t) g.go (g.workers t) x.1 x.2)
include hsteps

theorem Shut.put (h : g.Shut) : (g.put t x).Shut :=
  ⟨h.go, put_forall (P := fun _ w => w.phase = .warming ∨ w.phase = .parked) h.phase
    (hsteps.shut h.go (h.phase t))⟩

theorem Warm.put (h : g.Warm) : (g.put t x).Warm := by
  refine ⟨h.1, put_forall (P := fun _ w => w.phase ≠ .warming) h.2 fun hw => ?_⟩
  have harr := hsteps.arrived
  rw [Worker.arrived, Worker.arrived, if_pos hw, if_neg (h.2 t)] at harr
  omega

theorem Counted.put (hwarm : g.Warm) (h : g.Counted job) : (g.put t x).Counted job := by
  have hdue := hsteps.due
  rw [if_neg (hwarm.2 t)] at hdue
  have hsum := sum_put (g := g) (fun u w => w.due (job u)) t x
  have hcount : (g.put t x).counter = g.counter + x.2.counts := rfl
  unfold Counted at h ⊢
  omega

theorem Joined.put {k : ℕ} (h : g.Joined k) : (g.put t x).Joined k :=
  put_forall (P := fun u w => u.val < k → w.phase = .done) h fun ht => hsteps.done (h t ht)

theorem Stage.put {l : Leader} (h : g.Stage job l) (hl : ∀ n, l = .finished n → x.2.counts = 0) :
    (g.put t x).Stage job l := by
  cases l with
  | spawning costs => exact ⟨h.1.put hsteps, h.2⟩
  | waiting => exact ⟨h.1.put hsteps, h.2⟩
  | zeroing => exact ⟨h.1.put hsteps, h.2.put hsteps⟩
  | opening => exact ⟨h.1.put hsteps, h.2.1.put hsteps, h.2.2.put hsteps h.2.1⟩
  | joining k =>
      obtain ⟨hgo, hwarm, hcount, hk, hjoined⟩ := h
      exact ⟨hgo, hwarm.put hsteps, hcount.put hsteps hwarm, hk, hjoined.put hsteps⟩
  | finished n =>
      obtain ⟨hgo, hwarm, hcount, hjoined, hn⟩ := h
      refine ⟨hgo, hwarm.put hsteps, hcount.put hsteps hwarm, hjoined.put hsteps, ?_⟩
      show n = g.counter + x.2.counts
      rw [hl n rfl, hn, Nat.add_zero]

end put

/-- A thread that is done has no more to add. -/
theorem Inv.quiet (h : g.Inv job) {t : Fin T} (ht : (g.workers t).phase = .done) :
    ((g.workers t).next (job t) g.go).2 = .quiet := by
  rcases (Worker.next_steps g.go (h.good t)).left with ⟨-, hquiet, -⟩ | hleft
  · exact hquiet
  · simp only [Worker.left, ht] at hleft
    omega

theorem Inv.work (h : g.Inv job) (t : Fin T) : (g.work job t).Inv job := by
  unfold Group.work
  split_ifs
  · have hsteps := Worker.next_steps g.go (h.good t)
    refine ⟨put_forall h.good hsteps.good, ?_, ?_⟩
    · have hsum := sum_put (g := g) (fun _ w => w.arrived) t ((g.workers t).next (job t) g.go)
      have harr := hsteps.arrived
      have hready : (g.put t ((g.workers t).next (job t) g.go)).ready =
        g.ready + ((g.workers t).next (job t) g.go).2.arrivals := rfl
      have := h.ready
      omega
    · refine h.stage.put hsteps fun n hl => ?_
      have hstage := h.stage
      rw [hl] at hstage
      rw [h.quiet (hstage.2.2.2.1 t t.isLt)]
      rfl
  · exact h

/-- When as many have arrived as there are threads, nobody warms up. -/
theorem Inv.warm_of_ready (h : g.Inv job) (hspawned : g.spawned = T) (hready : T ≤ g.ready) :
    g.Warm := by
  refine ⟨hspawned, fun t ht => ?_⟩
  have hlt : ∑ u, (g.workers u).arrived < ∑ _u : Fin T, 1 := by
    refine Finset.sum_lt_sum (fun u _ => ?_) ⟨t, Finset.mem_univ t, ?_⟩
    · unfold Worker.arrived
      split_ifs <;> decide
    · rw [Worker.arrived, if_pos ht]
      decide
  rw [← Finset.card_eq_sum_ones, Finset.card_univ, Fintype.card_fin, ← h.ready] at hlt
  omega

/-- What is due of threads that have not passed the gate is the whole. -/
theorem Shut.due (h : g.Shut) : ∑ t, (g.workers t).due (job t) = ∑ t, (job t).total :=
  Finset.sum_congr rfl fun t _ => by
    unfold Worker.due
    rcases h.phase t with hw | hw <;> rw [hw]

theorem Inv.lead (h : g.Inv job) : g.lead.Inv job := by
  obtain ⟨hgood, hready, hstage⟩ := h
  have h : g.Inv job := ⟨hgood, hready, hstage⟩
  unfold Group.lead
  split
  next hl =>
    rw [hl] at hstage
    exact ⟨hgood, hready, ⟨hstage.1.1, hstage.1.2⟩, hstage.2⟩
  next costs hl =>
    rw [hl] at hstage
    refine ⟨hgood, hready, ⟨hstage.1.1, hstage.1.2⟩, ?_⟩
    have hlen := hstage.2
    rw [List.length_cons] at hlen
    show g.spawned + 1 + costs.length = T
    omega
  next n costs hl =>
    rw [hl] at hstage
    exact ⟨hgood, hready, ⟨hstage.1.1, hstage.1.2⟩, hstage.2⟩
  next hl =>
    rw [hl] at hstage
    split_ifs with hwait
    · exact h
    · exact ⟨hgood, hready, ⟨hstage.1.1, hstage.1.2⟩,
        h.warm_of_ready hstage.2 (Nat.le_of_not_lt hwait)⟩
  next hl =>
    rw [hl] at hstage
    refine ⟨hgood, hready, ⟨hstage.1.1, hstage.1.2⟩, hstage.2, ?_⟩
    exact (Nat.zero_add _).trans hstage.1.due
  next hl =>
    rw [hl] at hstage
    exact ⟨hgood, hready, rfl, hstage.2.1, hstage.2.2, Nat.zero_le T,
      fun t ht => absurd ht (Nat.not_lt_zero t.val)⟩
  next k hl =>
    rw [hl] at hstage
    obtain ⟨hgo, hwarm, hcount, hk, hjoined⟩ := hstage
    split_ifs with hlt hdone
    · refine ⟨hgood, hready, hgo, hwarm, hcount, hlt, fun t ht => ?_⟩
      rcases Nat.lt_succ_iff_lt_or_eq.mp ht with htk | rfl
      · exact hjoined t htk
      · exact hdone
    · exact h
    · obtain rfl : k = T := Nat.le_antisymm hk (Nat.le_of_not_lt hlt)
      exact ⟨hgood, hready, hgo, hwarm, hcount, hjoined, rfl⟩
  next => exact h

/-- **Every step of the leader or a thread keeps the invariant.** -/
theorem Inv.next (h : g.Inv job) (m : Move T) : (g.next job m).Inv job := by
  cases m with
  | leader => exact h.lead
  | worker t => exact h.work t

theorem Inv.run (h : g.Inv job) (moves : List (Move T)) : (g.run job moves).Inv job :=
  List.foldlRecOn moves (Group.next job) h fun _ hg m _ => hg.next m

/-! ### What follows -/

/-- Nothing is measured while anybody warms up. -/
theorem Inv.warm_of_passed (h : g.Inv job) {t : Fin T}
    (ht : (g.workers t).phase = .measuring ∨ (g.workers t).phase = .done) : g.Warm := by
  have hshut : ¬ g.Shut := by
    intro hs
    rcases ht with ht | ht <;> rcases hs.phase t with hp | hp <;> rw [ht] at hp <;> cases hp
  have hstage := h.stage
  cases hl : g.leader with
  | joining k =>
      rw [hl] at hstage
      exact hstage.2.1
  | finished n =>
      rw [hl] at hstage
      exact hstage.2.1
  | _ =>
      rw [hl] at hstage
      exact absurd hstage.1 hshut

/-- **What the leader reads in the end**: the count of what the measured inputs cost, when every
thread has gone through all of its own. -/
theorem Inv.result (h : g.Inv job) {n : ℕ} (hl : g.leader = .finished n) :
    n = ∑ t, (job t).total ∧ ∀ t, (g.workers t).state = (job t).final := by
  have hstage := h.stage
  rw [hl] at hstage
  obtain ⟨-, -, hcount, hjoined, rfl⟩ := hstage
  have hdone : ∀ t, (g.workers t).phase = .done := fun t => hjoined t t.isLt
  refine ⟨?_, fun t => ?_⟩
  · have hdue : ∑ t, (g.workers t).due (job t) = 0 :=
      Finset.sum_eq_zero fun t _ => by rw [Worker.due, hdone t]
    rw [← hcount, hdue, Nat.add_zero]
  · have hgood := h.good t
    rw [Worker.Good, hdone t] at hgood
    exact hgood.2

/-! ### Progress -/

/-- The steps left to the leader that change the state. -/
def leaderLeft (T : ℕ) : Leader → ℕ
  | .spawning costs => costs.sum + costs.length + (T + 5)
  | .waiting => T + 4
  | .zeroing => T + 3
  | .opening => T + 2
  | .joining k => T + 1 - k
  | .finished _ => 0

/-- The steps left that change the state. -/
def left (job : Fin T → Job σ ι) (g : Group T σ ι) : ℕ :=
  leaderLeft T g.leader + ∑ t, (g.workers t).left (job t)

/-- A thread that has been created can go on unless it is parked before the gate or done. -/
theorem Inv.left_work (h : g.Inv job) {t : Fin T} (ht : t.val < g.spawned) :
    g.work job t = g ∧
        ((g.workers t).phase = .parked ∧ g.go = false ∨ (g.workers t).phase = .done) ∨
      (g.work job t).left job + 1 = g.left job := by
  rw [Group.work, if_pos ht]
  rcases (Worker.next_steps g.go (h.good t)).left with ⟨hsame, hquiet, hphase⟩ | hleft
  · left
    refine ⟨?_, hphase⟩
    have hself : Function.update g.workers t (g.workers t) = g.workers := Function.update_eq_self ..
    rw [put, hsame, hquiet, hself]
    rfl
  · right
    have hsum := sum_put (g := g) (fun u w => w.left (job u)) t ((g.workers t).next (job t) g.go)
    have hleader : (g.put t ((g.workers t).next (job t) g.go)).leader = g.leader := rfl
    rw [Group.left, Group.left, hleader]
    omega

/-- The leader does its part of the work, unless it waits for the others or is done. -/
theorem Inv.left_lead (h : g.Inv job) : g.lead = g ∨ g.lead.left job + 1 = g.left job := by
  have hstage := h.stage
  have hleft : ∀ g' : Group T σ ι, g'.workers = g.workers →
      leaderLeft T g'.leader + 1 = leaderLeft T g.leader → g'.left job + 1 = g.left job := by
    intro g' hworkers hleader
    rw [Group.left, Group.left, hworkers]
    omega
  unfold Group.lead
  split
  next hl => exact Or.inr (hleft _ rfl (by rw [hl]; simp [leaderLeft]))
  next costs hl =>
    refine Or.inr (hleft _ rfl ?_)
    rw [hl]
    simp only [leaderLeft, List.sum_cons, List.length_cons]
    omega
  next n costs hl =>
    refine Or.inr (hleft _ rfl ?_)
    rw [hl]
    simp only [leaderLeft, List.sum_cons, List.length_cons]
    omega
  next hl =>
    split_ifs
    · exact Or.inl rfl
    · exact Or.inr (hleft _ rfl (by rw [hl]; rfl))
  next hl => exact Or.inr (hleft _ rfl (by rw [hl]; rfl))
  next hl => exact Or.inr (hleft _ rfl (by rw [hl]; rfl))
  next k hl =>
    rw [hl] at hstage
    have hk : k ≤ T := hstage.2.2.2.1
    split_ifs with hlt hdone
    · refine Or.inr (hleft _ rfl ?_)
      rw [hl, leaderLeft, leaderLeft]
      omega
    · exact Or.inl rfl
    · refine Or.inr (hleft _ rfl ?_)
      rw [hl, leaderLeft, leaderLeft]
      omega
  next => exact Or.inl rfl

/-- **A step changes nothing or leaves one step less.** -/
theorem Inv.left_next (h : g.Inv job) (m : Move T) :
    g.next job m = g ∨ (g.next job m).left job + 1 = g.left job := by
  cases m with
  | leader => exact h.left_lead
  | worker t =>
      by_cases ht : t.val < g.spawned
      · exact (h.left_work ht).imp_left And.left
      · exact Or.inl (if_neg ht)

/-- **Nobody waits for ever**: until the leader is done, somebody can go on. -/
theorem Inv.can_move (h : g.Inv job) (hl : ∀ n, g.leader ≠ .finished n) :
    ∃ m, g.next job m ≠ g := by
  have hstage := h.stage
  have hlead : ∀ l, g.lead.leader = l → l ≠ g.leader → ∃ m, g.next job m ≠ g :=
    fun l hnew hne => ⟨.leader, fun he => hne (by rw [← hnew]; exact congrArg leader he)⟩
  have hwork : ∀ t : Fin T, t.val < g.spawned →
      ¬ ((g.workers t).phase = .parked ∧ g.go = false ∨ (g.workers t).phase = .done) →
      ∃ m, g.next job m ≠ g := by
    intro t ht hphase
    refine ⟨.worker t, fun he => ?_⟩
    rcases h.left_work ht with ⟨-, hstuck⟩ | hleft
    · exact hphase hstuck
    · change g.work job t = g at he
      rw [he] at hleft
      omega
  cases hg : g.leader with
  | spawning costs =>
      cases costs with
      | nil => exact hlead .waiting (by simp [Group.lead, hg]) (by simp [hg])
      | cons n costs =>
          cases n with
          | zero => exact hlead (.spawning costs) (by simp [Group.lead, hg]) (by simp [hg])
          | succ n => exact hlead (.spawning (n :: costs)) (by simp [Group.lead, hg]) (by simp [hg])
  | waiting =>
      rw [hg] at hstage
      by_cases hready : g.ready < T
      · -- somebody has not arrived
        obtain ⟨t, ht⟩ : ∃ t, (g.workers t).phase = .warming := by
          by_contra hnone
          have hall : ∑ t, (g.workers t).arrived = ∑ _t : Fin T, 1 :=
            Finset.sum_congr rfl fun t _ => if_neg fun ht => hnone ⟨t, ht⟩
          rw [← h.ready, ← Finset.card_eq_sum_ones, Finset.card_univ, Fintype.card_fin] at hall
          omega
        exact hwork t (by rw [hstage.2]; exact t.isLt) (by simp [ht])
      · exact hlead .zeroing (by simp [Group.lead, hg, hready]) (by simp [hg])
  | zeroing => exact hlead .opening (by simp [Group.lead, hg]) (by simp [hg])
  | opening => exact hlead (.joining 0) (by simp [Group.lead, hg]) (by simp [hg])
  | joining k =>
      rw [hg] at hstage
      obtain ⟨hgo, ⟨hspawned, -⟩, -⟩ := hstage
      by_cases hk : k < T
      · by_cases hdone : (g.workers ⟨k, hk⟩).phase = .done
        · exact hlead (.joining (k + 1)) (by simp [Group.lead, hg, hk, hdone]) (by simp [hg])
        · exact hwork ⟨k, hk⟩ (by rw [hspawned]; exact hk) (by simp [hgo, hdone])
      · exact hlead (.finished g.counter) (by simp [Group.lead, hg, hk]) (by simp [hg])
  | finished n => exact absurd hg (hl n)

/-! ### Fair schedules -/

/-- Every thread takes its turn again and again. -/
def Fair (schedule : ℕ → Move T) : Prop := ∀ m k, ∃ k' ≥ k, schedule k' = m

variable (job) in
/-- The state after `k` steps of a schedule. -/
def after (g : Group T σ ι) (schedule : ℕ → Move T) (k : ℕ) : Group T σ ι :=
  g.run job ((List.range k).map schedule)

variable {schedule : ℕ → Move T}

theorem after_succ (g : Group T σ ι) (schedule : ℕ → Move T) (k : ℕ) :
    g.after job schedule (k + 1) = (g.after job schedule k).next job (schedule k) := by
  rw [after, after, run, run, List.range_succ, List.map_append, List.foldl_append]
  rfl

/-- As long as no step is spent the state stays as it is. -/
theorem Inv.after_eq_or (h : g.Inv job) (k d : ℕ) :
    g.after job schedule (k + d) = g.after job schedule k ∨
      (g.after job schedule (k + d)).left job < (g.after job schedule k).left job := by
  induction d with
  | zero => exact Or.inl rfl
  | succ d ih =>
      have hinv : (g.after job schedule (k + d)).Inv job := h.run _
      rw [← Nat.add_assoc, after_succ]
      rcases hinv.left_next (schedule (k + d)) with hsame | hless
      · rw [hsame]
        exact ih
      · right
        rcases ih with heq | hlt
        · rw [heq] at hless ⊢
          omega
        · omega

/-- **Every fair schedule ends.** -/
theorem Inv.finishes (h : g.Inv job) (hfair : Fair schedule) :
    ∃ k n, (g.after job schedule k).leader = .finished n := by
  suffices hleft : ∀ left k, (g.after job schedule k).left job ≤ left →
      ∃ k n, (g.after job schedule k).leader = .finished n from hleft _ 0 (Nat.le_refl _)
  intro left
  induction left with
  | zero =>
      intro k hk
      by_contra hnot
      have hinv : (g.after job schedule k).Inv job := h.run _
      obtain ⟨m, hm⟩ := hinv.can_move fun n hn => hnot ⟨k, n, hn⟩
      rcases hinv.left_next m with hsame | hless
      · exact hm hsame
      · omega
  | succ left ih =>
      intro k hk
      by_contra hnot
      have hinv : (g.after job schedule k).Inv job := h.run _
      obtain ⟨m, hm⟩ := hinv.can_move fun n hn => hnot ⟨k, n, hn⟩
      -- the move that is possible now is made, if nothing else has happened before its turn
      obtain ⟨k', hle, hturn⟩ := hfair m k
      obtain ⟨d, rfl⟩ := Nat.exists_eq_add_of_le hle
      refine hnot (ih (k + d + 1) ?_)
      have hinv' : (g.after job schedule (k + d)).Inv job := h.run _
      rw [after_succ, hturn]
      rcases h.after_eq_or k d with heq | hlt
      · rw [heq]
        rcases hinv.left_next m with hsame | hless
        · exact absurd hsame hm
        · omega
      · rcases hinv'.left_next m with hsame | hless
        · rw [hsame]
          omega
        · omega

/-- Everybody in turn, the leader last. -/
def roundRobin (T k : ℕ) : Move T :=
  if h : k % (T + 1) < T then .worker ⟨k % (T + 1), h⟩ else .leader

theorem roundRobin_fair (T : ℕ) : Fair (roundRobin T) := by
  intro m k
  have hturn : ∀ r < T + 1, ((T + 1) * k + r) % (T + 1) = r := fun r hr => by
    rw [Nat.mul_add_mod, Nat.mod_eq_of_lt hr]
  have hlate : ∀ r, k ≤ (T + 1) * k + r := fun r =>
    (Nat.le_mul_of_pos_left k (Nat.succ_pos T)).trans (Nat.le_add_right _ r)
  cases m with
  | leader =>
      refine ⟨(T + 1) * k + T, hlate T, ?_⟩
      rw [roundRobin, dif_neg]
      rw [hturn T (Nat.lt_succ_self T)]
      exact Nat.lt_irrefl T
  | worker t =>
      have hr := hturn t.val (Nat.lt_succ_of_lt t.isLt)
      refine ⟨(T + 1) * k + t.val, hlate t.val, ?_⟩
      rw [roundRobin, dif_pos (by rw [hr]; exact t.isLt)]
      exact congrArg Move.worker (Fin.ext hr)

end Group

end Barrier
