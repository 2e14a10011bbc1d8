import LimitOrderBook.Transition
import LimitOrderBook.Types
import Mathlib.Data.List.Nodup
import Mathlib.Data.List.Perm.Basic

/-! # The benchmark workload

The generator of `bench/workload.hpp`.  It draws 64-bit words and makes operations of them, without
an engine: it keeps the mid price, the next id, and the orders it may still cancel or modify.

The source of the words is a parameter `next` (`Mt19937.next` in the program), so what is proved of
a workload is proved for every seed, and for every other stream of words.  `Makes` is what one operation can be, without
the draws that decide it; a whole workload numbers its orders `1, 2, …`, stays near the mid, and
cancels or modifies only orders that it made and has not cancelled (`generate_orderly`). -/

namespace Lob

/-! ### Random numbers -/

/-- `std::mt19937_64` -/
structure Mt19937 where
  state : Vector UInt64 312
  index : ℕ

namespace Mt19937

/-- The word `w` of index `i` and the `n - 1` words seeded from it. -/
def seedWords : ℕ → ℕ → UInt64 → List UInt64
  | 0, _, _ => []
  | n + 1, i, w => w :: seedWords n (i + 1)
      ((6364136223846793005 : UInt64) * (w ^^^ (w >>> 62)) + UInt64.ofNat (i + 1))

theorem length_seedWords (n i : ℕ) (w : UInt64) : (seedWords n i w).length = n := by
  induction n generalizing i w with
  | zero => rfl
  | succ n ih => exact congrArg _ (ih _ _)

def ofSeed (seed : UInt64) : Mt19937 where
  state := ⟨(seedWords 312 0 seed).toArray, length_seedWords 312 0 seed⟩
  index := 312

/-- The new word at `k`, from the words at `k`, `k + 1` and `k + 156`. -/
def mix (x x₁ x₁₅₆ : UInt64) : UInt64 :=
  let y := (x &&& 0xFFFFFFFF80000000) ||| (x₁ &&& 0x7FFFFFFF)
  x₁₅₆ ^^^ (y >>> 1) ^^^ (if y &&& 1 = 1 then 0xB5026F5AA96619E9 else 0)

def twist (x : Vector UInt64 312) : Vector UInt64 312 :=
  (List.finRange 312).foldl
    (fun x k => x.set k.1 (mix (x.get k) (x.get (k + 1)) (x.get (k + 156))) k.2) x

def temper (y : UInt64) : UInt64 :=
  let y := y ^^^ ((y >>> 29) &&& 0x5555555555555555)
  let y := y ^^^ ((y <<< 17) &&& 0x71D67FFFEDA60000)
  let y := y ^^^ ((y <<< 37) &&& 0xFFF7EEE000000000)
  y ^^^ (y >>> 43)

def next (m : Mt19937) : UInt64 × Mt19937 :=
  let m := if m.index < 312 then m else ⟨twist m.state, 0⟩
  (temper (m.state.get (Fin.ofNat 312 m.index)), { m with index := m.index + 1 })

end Mt19937

/-! ### The generator -/

namespace Bench

inductive OpKind where
  | limit
  | market
  | cancel
  | modify
deriving DecidableEq, Repr

/-- One operation of the benchmark. -/
structure Op where
  id : OrderId
  price : Int
  qty : Qty
  kind : OpKind
  side : Side
  tif : Tif
deriving DecidableEq, Repr

/-- An order that may be a target, with the last price the engine was told for it. -/
structure LiveRef where
  id : OrderId
  side : Side
  px : Int
deriving DecidableEq, Repr

structure WorkloadGen (σ : Type) where
  rng : σ
  mid : Int := 10000
  nextId : OrderId := 1
  live : List LiveRef := []

/-- `live_[i] = live_.back(); live_.pop_back();` -/
def swapPop {α : Type} (i : ℕ) (l : List α) : List α :=
  match l.getLast? with
  | none => l
  | some back => (l.set i back).dropLast

namespace WorkloadGen

/-- A step of the generator. -/
abbrev Gen (σ : Type) := StateM (WorkloadGen σ)

section code

variable {σ : Type} (next : σ → UInt64 × σ)

def draw : Gen σ UInt64 := modifyGet fun g => ((next g.rng).1, { g with rng := (next g.rng).2 })

def randSide : Gen σ Side := do
  let d ← draw next
  return if d &&& 1 ≠ 0 then .ask else .bid

/-- `next_id_++` -/
def takeId : Gen σ OrderId := modifyGet fun g => (g.nextId, { g with nextId := g.nextId + 1 })

/-- An order that the generator may target from now on, if need be in the place of another. -/
def track (id : OrderId) (s : Side) (px : Int) : Gen σ PUnit := do
  if 50000 ≤ (← get).live.length then
    let d ← draw next
    modify fun g => { g with live := swapPop (d.toNat % g.live.length) g.live }
  modify fun g => { g with live := g.live ++ [⟨id, s, px⟩] }

/-- A limit order 1 to 8 ticks off the mid, on its own side. -/
def passiveLimit : Gen σ Op := do
  let s ← randSide next
  let off : Int := 1 + ((← draw next) % 8).toNat
  let mid := (← get).mid
  let px := if s = .bid then mid - off else mid + off
  let q : Qty := 1 + ((← draw next) % 100).toUInt32
  let id ← takeId
  track next id s px
  return ⟨id, px, q, .limit, s, .gtc⟩

/-- A limit order 0 to 2 ticks through the mid. -/
def aggressiveLimit : Gen σ Op := do
  let s ← randSide next
  let off : Int := ((← draw next) % 3).toNat
  let mid := (← get).mid
  let px := if s = .bid then mid + off else mid - off
  let q : Qty := 1 + ((← draw next) % 100).toUInt32
  let t := (← draw next) % 10
  let tif : Tif := if t < 7 then .gtc else if t < 9 then .ioc else .fok
  let id ← takeId
  track next id s px
  return ⟨id, px, q, .limit, s, tif⟩

def marketOp : Gen σ Op := do
  let q : Qty := 1 + ((← draw next) % 50).toUInt32
  let id ← takeId
  let s ← randSide next
  return ⟨id, 0, q, .market, s, .ioc⟩

/-- The target leaves `live`: it is not cancelled twice. -/
def cancelOp : Gen σ Op := do
  let d ← draw next
  let live := (← get).live
  let idx := d.toNat % live.length
  let ref := live.getD idx ⟨0, .bid, 0⟩
  modify fun g => { g with live := swapPop idx g.live }
  return ⟨ref.id, 0, 0, .cancel, ref.side, .gtc⟩

/-- A new size at the price the order has. -/
def resizeOp (ref : LiveRef) : Gen σ Op := do
  let q : Qty := 1 + ((← draw next) % 15).toUInt32
  return ⟨ref.id, ref.px, q, .modify, ref.side, .gtc⟩

/-- A new price, 1 to 8 ticks off the mid on the order's own side. -/
def repriceOp (idx : ℕ) (ref : LiveRef) : Gen σ Op := do
  let off : Int := 1 + ((← draw next) % 8).toNat
  let mid := (← get).mid
  let px := if ref.side = .bid then mid - off else mid + off
  modify fun g => { g with live := g.live.set idx { ref with px } }
  let q : Qty := 1 + ((← draw next) % 100).toUInt32
  return ⟨ref.id, px, q, .modify, ref.side, .gtc⟩

/-- The target stays in `live`, under the same id. -/
def modifyOp : Gen σ Op := do
  let d ← draw next
  let live := (← get).live
  let idx := d.toNat % live.length
  let ref := live.getD idx ⟨0, .bid, 0⟩
  let coin ← draw next
  if coin &&& 1 ≠ 0 then resizeOp next ref else repriceOp next idx ref

def driftMid : Gen σ PUnit := do
  let d ← draw next
  modify fun g => { g with mid := g.mid + (((d % 3).toNat : Int) - 1) }
  modify fun g => if g.mid < 9000 then { g with mid := 9000 } else g
  modify fun g => if 11000 < g.mid then { g with mid := 11000 } else g

/-- The mix of operations. -/
def pickOp : Gen σ Op := do
  let p := (← draw next) % 100
  let empty := (← get).live.isEmpty
  if p < 30 && !empty then cancelOp next
  else if p < 40 && !empty then modifyOp next
  else if p < 45 then marketOp next
  else if p < 55 then aggressiveLimit next
  else passiveLimit next

/-- One turn of the loop of `generate`. -/
def turn (i : ℕ) : Gen σ Op := do
  if i &&& 63 = 0 then driftMid next
  pickOp next

/-- The turn as a step of a machine. -/
def step (g : WorkloadGen σ) (i : ℕ) : WorkloadGen σ × Op := ((turn next i).run g).swap

def generate (n : ℕ) (g : WorkloadGen σ) : List Op :=
  Transition.outputs (step next) g (List.range n)

end code

def ofSeed (seed : UInt64) : WorkloadGen Mt19937 := { rng := Mt19937.ofSeed seed }

/-! ### What one operation can be -/

/-- An operation and the generator behind it, for some outcome of the draws. -/
inductive Makes {σ : Type} (g : WorkloadGen σ) : Op → WorkloadGen σ → Prop where
  | limit (rng : σ) (s : Side) (px : Int) (q : Qty) (tif : Tif) (evicted : Option LiveRef)
      (kept : List LiveRef) (near : g.mid - 8 ≤ px ∧ px ≤ g.mid + 8) (size : 1 ≤ q ∧ q ≤ 100)
      (target : g.live.Perm (evicted.toList ++ kept)) (room : kept.length < 50000) :
      Makes g ⟨g.nextId, px, q, .limit, s, tif⟩
        ⟨rng, g.mid, g.nextId + 1, kept ++ [⟨g.nextId, s, px⟩]⟩
  | market (rng : σ) (s : Side) (q : Qty) (size : 1 ≤ q ∧ q ≤ 100) :
      Makes g ⟨g.nextId, 0, q, .market, s, .ioc⟩ ⟨rng, g.mid, g.nextId + 1, g.live⟩
  | cancel (rng : σ) (ref : LiveRef) (kept : List LiveRef) (target : g.live.Perm (ref :: kept)) :
      Makes g ⟨ref.id, 0, 0, .cancel, ref.side, .gtc⟩ ⟨rng, g.mid, g.nextId, kept⟩
  | resize (rng : σ) (ref : LiveRef) (q : Qty) (target : ref ∈ g.live) (size : 1 ≤ q ∧ q ≤ 100) :
      Makes g ⟨ref.id, ref.px, q, .modify, ref.side, .gtc⟩ ⟨rng, g.mid, g.nextId, g.live⟩
  | reprice (rng : σ) (ref : LiveRef) (pre post : List LiveRef) (px : Int) (q : Qty)
      (target : g.live = pre ++ ref :: post) (near : g.mid - 8 ≤ px ∧ px ≤ g.mid + 8)
      (size : 1 ≤ q ∧ q ≤ 100) :
      Makes g ⟨ref.id, px, q, .modify, ref.side, .gtc⟩
        ⟨rng, g.mid, g.nextId, pre ++ { ref with px } :: post⟩

section makes

variable {σ : Type} (next : σ → UInt64 × σ)

/-- The draws that went before do not show. -/
theorem Makes.of_rng {g g' : WorkloadGen σ} {rng : σ} {op : Op}
    (h : Makes { g with rng } op g') : Makes g op g' := by
  cases h with
  | limit rng' s px q tif evicted kept near size target room =>
      exact .limit rng' s px q tif evicted kept near size target room
  | market rng' s q size => exact .market rng' s q size
  | cancel rng' ref kept target => exact .cancel rng' ref kept target
  | resize rng' ref q target size => exact .resize rng' ref q target size
  | reprice rng' ref pre post px q target near size =>
      exact .reprice rng' ref pre post px q target near size

theorem size_of_draw (d : UInt64) {k : UInt64} (hk : k.toNat ≤ 100) (hpos : 0 < k.toNat) :
    1 ≤ 1 + (d % k).toUInt32 ∧ 1 + (d % k).toUInt32 ≤ 100 := by
  have hlt : d.toNat % k.toNat < k.toNat := Nat.mod_lt _ hpos
  have hnat : (1 + (d % k).toUInt32).toNat = 1 + d.toNat % k.toNat := by
    rw [UInt32.toNat_add, UInt64.toNat_toUInt32, UInt64.toNat_mod, UInt32.toNat_one]
    omega
  rw [UInt32.le_iff_toNat_le, UInt32.le_iff_toNat_le, hnat]
  constructor
  · exact Nat.le_add_right 1 _
  · change 1 + d.toNat % k.toNat ≤ 100
    omega

theorem toNat_mod_lt (d : UInt64) {k : UInt64} (hpos : 0 < k.toNat) : (d % k).toNat < k.toNat := by
  rw [UInt64.toNat_mod]
  exact Nat.mod_lt _ hpos

/-- Swap and pop takes out the `i`-th element. -/
theorem perm_swapPop {α : Type} {l : List α} {i : ℕ} {a : α} (h : l[i]? = some a) :
    l.Perm (a :: swapPop i l) := by
  obtain ⟨hi, hget⟩ := List.getElem?_eq_some_iff.mp h
  have hne : l ≠ [] := List.ne_nil_of_length_pos (by omega)
  have hswap : swapPop i l = (l.set i (l.getLast hne)).dropLast := by
    rw [swapPop, List.getLast?_eq_some_getLast hne]
  have hset : l.set i (l.getLast hne) ≠ [] := by
    rwa [Ne, List.set_eq_nil_iff]
  have hlast : (l.set i (l.getLast hne)).getLast hset = l.getLast hne := by
    rw [List.getLast_eq_getElem, List.getElem_set]
    split_ifs
    · rfl
    · simp only [List.length_set, List.getLast_eq_getElem]
  have hsnoc : swapPop i l ++ [l.getLast hne] = l.set i (l.getLast hne) := by
    have h := List.dropLast_concat_getLast hset
    rwa [hlast, ← hswap] at h
  have hback : (l.getLast hne :: swapPop i l).Perm (l.getLast hne :: l.eraseIdx i) := by
    refine (List.perm_append_singleton _ _).symm.trans ?_
    rw [hsnoc]
    exact List.set_perm_cons_eraseIdx hi _
  calc
    l.Perm (l[i] :: l.eraseIdx i) := (List.getElem_cons_eraseIdx_perm hi).symm
    List.Perm _ (a :: swapPop i l) := by
      rw [hget]
      exact hback.cons_inv.symm.cons a

/-- What `track` leaves: a list of fewer than 50000, and the new order behind it. -/
theorem track_spec (id : OrderId) (s : Side) (px : Int) {g : WorkloadGen σ}
    (hsmall : g.live.length ≤ 50000) : ∃ (rng : σ) (evicted : Option LiveRef) (kept : List LiveRef),
      (track next id s px).run g = ((), ⟨rng, g.mid, g.nextId, kept ++ [⟨id, s, px⟩]⟩) ∧
        g.live.Perm (evicted.toList ++ kept) ∧ kept.length < 50000 := by
  by_cases hfull : 50000 ≤ g.live.length
  · have hpos : 0 < g.live.length := by omega
    have hi : (next g.rng).1.toNat % g.live.length < g.live.length := Nat.mod_lt _ hpos
    have hperm := perm_swapPop (List.getElem?_eq_getElem hi)
    have hlen := hperm.length_eq
    rw [List.length_cons] at hlen
    refine ⟨(next g.rng).2, some _, swapPop _ g.live, ?_, hperm, by omega⟩
    simp only [track, bind, StateT.bind, StateT.run, get, getThe, MonadStateOf.get, StateT.get,
      pure, hfull, if_true]
    rfl
  · refine ⟨g.rng, none, g.live, ?_, List.Perm.refl _, by omega⟩
    simp only [track, bind, StateT.bind, StateT.run, get, getThe, MonadStateOf.get, StateT.get,
      pure, hfull, if_false]
    rfl

/-- A limit order that is tracked behind the draws `rng`. -/
theorem makes_tracked {g : WorkloadGen σ} (hsmall : g.live.length ≤ 50000) (rng : σ) (s : Side)
    {px : Int} (hpx : g.mid - 8 ≤ px ∧ px ≤ g.mid + 8) {q : Qty} (hq : 1 ≤ q ∧ q ≤ 100)
    (tif : Tif) :
    Makes g ⟨g.nextId, px, q, .limit, s, tif⟩
      ((track next g.nextId s px).run ⟨rng, g.mid, g.nextId + 1, g.live⟩).2 := by
  obtain ⟨rng', evicted, kept, hrun, hperm, hroom⟩ :=
    track_spec next g.nextId s px (g := ⟨rng, g.mid, g.nextId + 1, g.live⟩) hsmall
  rw [hrun]
  exact .limit rng' s px q tif evicted kept hpx hq hperm hroom

theorem passiveLimit_makes {g : WorkloadGen σ} (hsmall : g.live.length ≤ 50000) :
    Makes g ((passiveLimit next).run g).1 ((passiveLimit next).run g).2 := by
  have hoff := toNat_mod_lt (next (next g.rng).2).1 (k := 8) (by decide)
  refine makes_tracked next hsmall (next (next (next g.rng).2).2).2 _ ?_
    (size_of_draw _ (by decide) (by decide)) .gtc
  change _ < 8 at hoff
  dsimp only
  split_ifs <;> omega

theorem aggressiveLimit_makes {g : WorkloadGen σ} (hsmall : g.live.length ≤ 50000) :
    Makes g ((aggressiveLimit next).run g).1 ((aggressiveLimit next).run g).2 := by
  have hoff := toNat_mod_lt (next (next g.rng).2).1 (k := 3) (by decide)
  refine makes_tracked next hsmall (next (next (next (next g.rng).2).2).2).2 _ ?_
    (size_of_draw _ (by decide) (by decide)) _
  change _ < 3 at hoff
  dsimp only
  split_ifs <;> omega

theorem marketOp_makes (g : WorkloadGen σ) :
    Makes g ((marketOp next).run g).1 ((marketOp next).run g).2 :=
  .market _ _ _ (size_of_draw _ (by decide) (by decide))

/-- The target of a draw. -/
theorem target_of_draw {g : WorkloadGen σ} (hne : g.live ≠ []) (d : UInt64) :
    g.live[d.toNat % g.live.length]? =
      some (g.live.getD (d.toNat % g.live.length) ⟨0, .bid, 0⟩) := by
  have hi : d.toNat % g.live.length < g.live.length :=
    Nat.mod_lt _ (List.length_pos_iff.mpr hne)
  rw [List.getD_eq_getElem?_getD, List.getElem?_eq_getElem hi, Option.getD_some]

theorem cancelOp_makes {g : WorkloadGen σ} (hne : g.live ≠ []) :
    Makes g ((cancelOp next).run g).1 ((cancelOp next).run g).2 :=
  .cancel _ _ _ (perm_swapPop (target_of_draw hne (next g.rng).1))

theorem repriceOp_makes {g : WorkloadGen σ} {idx : ℕ} {ref : LiveRef}
    (hget : g.live[idx]? = some ref) (rng : σ) :
    Makes g ((repriceOp next idx ref).run { g with rng }).1
      ((repriceOp next idx ref).run { g with rng }).2 := by
  obtain ⟨hi, hat⟩ := List.getElem?_eq_some_iff.mp hget
  have hsplit : g.live = g.live.take idx ++ ref :: g.live.drop (idx + 1) := by
    rw [← hat, List.getElem_cons_drop, List.take_append_drop]
  have hset : ∀ r : LiveRef,
      g.live.set idx r = g.live.take idx ++ r :: g.live.drop (idx + 1) := by
    intro r
    rw [List.set_eq_take_append_cons_drop, if_pos hi]
  have hoff := toNat_mod_lt (next rng).1 (k := 8) (by decide)
  change _ < 8 at hoff
  have hnear : ∀ px, px = (if ref.side = .bid then g.mid - (1 + (((next rng).1 % 8).toNat : Int))
      else g.mid + (1 + (((next rng).1 % 8).toNat : Int))) → g.mid - 8 ≤ px ∧ px ≤ g.mid + 8 := by
    rintro px rfl
    split_ifs <;> omega
  have h := Makes.reprice (next (next rng).2).2 ref _ _ _ _ hsplit (hnear _ rfl)
    (size_of_draw (next (next rng).2).1 (k := 100) (by decide) (by decide))
  rw [← hset] at h
  exact h

theorem modifyOp_makes {g : WorkloadGen σ} (hne : g.live ≠ []) :
    Makes g ((modifyOp next).run g).1 ((modifyOp next).run g).2 := by
  have hget := target_of_draw hne (next g.rng).1
  have hrun : (modifyOp next).run g =
      (if (next (next g.rng).2).1 &&& 1 ≠ 0 then resizeOp next _ else repriceOp next _ _).run
        { g with rng := (next (next g.rng).2).2 } := rfl
  rw [hrun]
  split_ifs
  · exact .resize _ _ _ (List.mem_of_getElem? hget) (size_of_draw _ (by decide) (by decide))
  · exact repriceOp_makes next hget _

theorem driftMid_spec (g : WorkloadGen σ) :
    ∃ (rng : σ) (mid : Int), (driftMid next).run g = ((), ⟨rng, mid, g.nextId, g.live⟩) ∧
      9000 ≤ mid ∧ mid ≤ 11000 := by
  have hdrift := toNat_mod_lt (next g.rng).1 (k := 3) (by decide)
  change _ < 3 at hdrift
  have hrun : (driftMid next).run g =
      ((), (fun g : WorkloadGen σ => if 11000 < g.mid then { g with mid := 11000 } else g)
        ((fun g : WorkloadGen σ => if g.mid < 9000 then { g with mid := 9000 } else g)
          { g with
            rng := (next g.rng).2
            mid := g.mid + ((((next g.rng).1 % 3).toNat : Int) - 1) })) := rfl
  rw [hrun]
  dsimp only
  split_ifs <;> exact ⟨_, _, rfl, by dsimp only at *; omega⟩

theorem pickOp_makes {g : WorkloadGen σ} (hsmall : g.live.length ≤ 50000) :
    Makes g ((pickOp next).run g).1 ((pickOp next).run g).2 := by
  have hne : ∀ p : Bool, (p && !g.live.isEmpty) = true → g.live ≠ [] := by
    intro p h hnil
    rw [hnil] at h
    cases p <;> cases h
  have hrun : (pickOp next).run g =
      (if (decide ((next g.rng).1 % 100 < 30) && !g.live.isEmpty) = true then cancelOp next
      else if (decide ((next g.rng).1 % 100 < 40) && !g.live.isEmpty) = true then modifyOp next
      else if (next g.rng).1 % 100 < 45 then marketOp next
      else if (next g.rng).1 % 100 < 55 then aggressiveLimit next
      else passiveLimit next).run { g with rng := (next g.rng).2 } := rfl
  rw [hrun]
  have hmakes : ∀ {op : Op} {g' : WorkloadGen σ},
      Makes { g with rng := (next g.rng).2 } op g' → Makes g op g' := fun h => Makes.of_rng h
  apply hmakes
  split_ifs with hcancel hmodify
  · exact cancelOp_makes next (hne _ hcancel)
  · exact modifyOp_makes next (hne _ hmodify)
  · exact marketOp_makes next _
  · exact aggressiveLimit_makes next hsmall
  · exact passiveLimit_makes next hsmall

/-- **One turn of the loop** moves the mid, and then makes an operation. -/
theorem step_makes (i : ℕ) {g : WorkloadGen σ} (hmid : 9000 ≤ g.mid ∧ g.mid ≤ 11000)
    (hsmall : g.live.length ≤ 50000) : ∃ (rng : σ) (mid : Int), (9000 ≤ mid ∧ mid ≤ 11000) ∧
      Makes ⟨rng, mid, g.nextId, g.live⟩ (step next g i).2 (step next g i).1 := by
  by_cases hi : i &&& 63 = 0
  · obtain ⟨rng, mid, hdrift, hmid'⟩ := driftMid_spec next g
    refine ⟨rng, mid, hmid', ?_⟩
    have hrun : step next g i = ((pickOp next).run ((driftMid next).run g).2).swap := by
      simp only [step, turn, hi, if_true]
      rfl
    rw [hrun, hdrift]
    exact pickOp_makes next hsmall
  · refine ⟨g.rng, g.mid, hmid, ?_⟩
    have hrun : step next g i = ((pickOp next).run g).swap := by
      simp only [step, turn, hi, if_false]
    rw [hrun]
    exact pickOp_makes next hsmall

end makes

end WorkloadGen

/-! ### What a workload is -/

/-- Does the operation bring in an order? -/
def Op.isNew (op : Op) : Bool := op.kind = .limit || op.kind = .market

/-- Does the operation tell the engine a price? -/
def Op.isPriced (op : Op) : Bool := op.kind = .limit || op.kind = .modify

def newIds (ops : List Op) : List OrderId := (ops.filter Op.isNew).map Op.id

/-- The last price the engine was told for an order. -/
def told (ops : List Op) (id : OrderId) : Option Int :=
  ((ops.filter fun op => op.isPriced && op.id = id).getLast?).map Op.price

/-- An order of the workload that was not cancelled, at the price it was told. -/
structure Open (ops : List Op) (ref : LiveRef) : Prop where
  made : ∃ op ∈ ops, op.kind = .limit ∧ op.id = ref.id ∧ op.side = ref.side
  kept : ∀ op ∈ ops, op.kind = .cancel → op.id ≠ ref.id
  px : told ops ref.id = some ref.px

/-- The bounds on what an operation carries. -/
structure Op.Shaped (op : Op) : Prop where
  price : op.isPriced = true → 8992 ≤ op.price ∧ op.price ≤ 11008
  size : op.kind ≠ .cancel → 1 ≤ op.qty ∧ op.qty ≤ 100

/-- A workload numbers the orders it brings in, and cancels or modifies only open ones. -/
structure Orderly (ops : List Op) : Prop where
  numbered : (newIds ops).map UInt64.toNat = List.range' 1 (newIds ops).length
  shaped : ∀ op ∈ ops, op.Shaped
  targets : ∀ pre op, pre ++ [op] <+: ops → op.isNew = false →
    ∃ px, Open pre ⟨op.id, op.side, px⟩

section orderly

variable {ops : List Op} {op : Op} {ref : LiveRef}

theorem newIds_append (ops ops' : List Op) : newIds (ops ++ ops') = newIds ops ++ newIds ops' := by
  rw [newIds, List.filter_append, List.map_append]
  rfl

theorem newIds_singleton (op : Op) : newIds [op] = if op.isNew then [op.id] else [] := by
  unfold newIds
  cases h : op.isNew <;> simp [h]

theorem told_concat (ops : List Op) (op : Op) (id : OrderId) :
    told (ops ++ [op]) id =
      if op.isPriced = true ∧ op.id = id then some op.price else told ops id := by
  unfold told
  rw [List.filter_append, List.filter_singleton]
  split_ifs with h
  · rw [h.1, decide_eq_true h.2, Bool.and_true, cond_true, List.getLast?_concat]
    rfl
  · have hno : (op.isPriced && decide (op.id = id)) = false := by
      rwa [← Bool.not_eq_true, Bool.and_eq_true, decide_eq_true_eq]
    rw [hno, cond_false, List.append_nil]

theorem told_eq_some {id : OrderId} {px : Int} (h : told ops id = some px) :
    ∃ op ∈ ops, op.isPriced = true ∧ op.price = px := by
  obtain ⟨op, hlast, hpx⟩ := Option.map_eq_some_iff.mp h
  obtain ⟨hop, hpriced⟩ := List.mem_filter.mp (List.mem_of_getLast? hlast)
  rw [Bool.and_eq_true] at hpriced
  exact ⟨op, hop, hpriced.1, hpx⟩

theorem mem_newIds (hop : op ∈ ops) (hnew : op.isNew = true) : op.id ∈ newIds ops :=
  List.mem_map_of_mem (List.mem_filter.mpr ⟨hop, hnew⟩)

theorem Open.mem_newIds (h : Open ops ref) : ref.id ∈ newIds ops := by
  obtain ⟨op, hop, hkind, hid, -⟩ := h.made
  rw [← hid]
  exact Bench.mem_newIds hop (by rw [Op.isNew, hkind]; rfl)

/-- An open order under one more operation, which may tell the engine another price of it. -/
theorem Open.concat (h : Open ops ref) (hcancel : op.kind = .cancel → op.id ≠ ref.id) {px : Int}
    (hpx : (if op.isPriced = true ∧ op.id = ref.id then op.price else ref.px) = px) :
    Open (ops ++ [op]) { ref with px } := by
  obtain ⟨op', hop', hmade⟩ := h.made
  refine ⟨⟨op', List.mem_append_left _ hop', hmade⟩, ?_, ?_⟩
  · intro op'' hop'' hkind
    rcases List.mem_append.mp hop'' with hold | hnew
    · exact h.kept op'' hold hkind
    · obtain rfl := List.mem_singleton.mp hnew
      exact hcancel hkind
  · rw [told_concat, ← hpx]
    dsimp only
    split_ifs
    · rfl
    · exact h.px

/-- An open order under an operation on another one. -/
theorem Open.concat_ne (h : Open ops ref) (hne : op.id ≠ ref.id) : Open (ops ++ [op]) ref :=
  h.concat (fun _ => hne) (if_neg fun hop => hne hop.2)

namespace Orderly

variable (h : Orderly ops)
include h

/-- Every operation names an order of the workload. -/
theorem id_mem (hop : op ∈ ops) : op.id ∈ newIds ops := by
  cases hnew : op.isNew with
  | true => exact mem_newIds hop hnew
  | false =>
      obtain ⟨pre, post, rfl⟩ := List.append_of_mem hop
      obtain ⟨px, hopen⟩ := h.targets pre op ⟨post, by simp⟩ hnew
      rw [newIds_append]
      exact List.mem_append_left _ hopen.mem_newIds

/-- The next number is not taken. -/
theorem fresh (hop : op ∈ ops) (n : OrderId) (hn : n.toNat = (newIds ops).length + 1) :
    op.id ≠ n := by
  rintro rfl
  have hmem := List.mem_map_of_mem (f := UInt64.toNat) (h.id_mem hop)
  rw [h.numbered, List.mem_range'_1, hn] at hmem
  omega

theorem reach (href : Open ops ref) : 8992 ≤ ref.px ∧ ref.px ≤ 11008 := by
  obtain ⟨op, hop, hpriced, hpx⟩ := told_eq_some href.px
  rw [← hpx]
  exact (h.shaped op hop).price hpriced

theorem concat (hshaped : op.Shaped)
    (hnew : op.isNew = true → op.id.toNat = (newIds ops).length + 1)
    (htarget : op.isNew = false → ∃ px, Open ops ⟨op.id, op.side, px⟩) :
    Orderly (ops ++ [op]) := by
  refine ⟨?_, ?_, ?_⟩
  · rw [newIds_append, newIds_singleton]
    cases hop : op.isNew with
    | true =>
        rw [if_pos rfl, List.map_append, h.numbered, List.length_append, List.length_singleton,
          List.range'_concat, List.map_singleton, hnew hop]
        congr 2
        omega
    | false =>
        rw [if_neg Bool.false_ne_true, List.append_nil]
        exact h.numbered
  · intro op' hop'
    rcases List.mem_append.mp hop' with hold | hlast
    · exact h.shaped op' hold
    · rwa [List.mem_singleton.mp hlast]
  · intro pre op' hpre hop'
    rcases List.prefix_concat_iff.mp hpre with heq | hold
    · obtain ⟨rfl, hlast⟩ := List.append_inj' heq rfl
      obtain rfl := List.singleton_inj.mp hlast
      exact htarget hop'
    · exact h.targets pre op' hold hop'

end Orderly

end orderly

namespace WorkloadGen

/-! ### Whole workloads -/

/-- The generator behind the operations `ops`. -/
structure Inv {σ : Type} (ops : List Op) (g : WorkloadGen σ) : Prop where
  orderly : Orderly ops
  nextId : g.nextId = UInt64.ofNat ((newIds ops).length + 1)
  mid : 9000 ≤ g.mid ∧ g.mid ≤ 11000
  small : g.live.length ≤ 50000
  nodup : (g.live.map LiveRef.id).Nodup
  live : ∀ ref ∈ g.live, Open ops ref

section runs

variable {σ : Type} (next : σ → UInt64 × σ) {ops : List Op} {op : Op}

theorem length_newIds_le (ops : List Op) : (newIds ops).length ≤ ops.length := by
  rw [newIds, List.length_map]
  exact List.length_filter_le _ _

theorem length_newIds_new (hnew : op.isNew = true) :
    (newIds (ops ++ [op])).length = (newIds ops).length + 1 := by
  rw [newIds_append, newIds_singleton, if_pos hnew, List.length_append, List.length_singleton]

theorem length_newIds_old (hold : op.isNew = false) :
    (newIds (ops ++ [op])).length = (newIds ops).length := by
  rw [newIds_append, newIds_singleton, hold, if_neg Bool.false_ne_true, List.append_nil]

namespace Inv

variable {g : WorkloadGen σ} (h : Inv ops g)
include h

theorem toNat_nextId (hops : ops.length + 1 < 2 ^ 64) :
    g.nextId.toNat = (newIds ops).length + 1 := by
  have hlen := length_newIds_le ops
  rw [h.nextId, UInt64.toNat_ofNat']
  exact Nat.mod_eq_of_lt (by omega)

theorem nextId_succ : g.nextId + 1 = UInt64.ofNat ((newIds ops).length + 1 + 1) := by
  rw [UInt64.ofNat_add, ← h.nextId]
  rfl

/-- The next id is no target. -/
theorem nextId_ne (hops : ops.length + 1 < 2 ^ 64) {ref : LiveRef} (href : Open ops ref) :
    g.nextId ≠ ref.id := by
  obtain ⟨op, hop, -, hid, -⟩ := href.made
  rw [← hid]
  exact (h.orderly.fresh hop g.nextId (h.toNat_nextId hops)).symm

theorem limit (hops : ops.length + 1 < 2 ^ 64) (rng : σ) (s : Side) {px : Int}
    (near : g.mid - 8 ≤ px ∧ px ≤ g.mid + 8) {q : Qty} (size : 1 ≤ q ∧ q ≤ 100) (tif : Tif)
    {evicted kept : List LiveRef} (target : g.live.Perm (evicted ++ kept))
    (room : kept.length < 50000) :
    Inv (ops ++ [⟨g.nextId, px, q, .limit, s, tif⟩])
      ⟨rng, g.mid, g.nextId + 1, kept ++ [⟨g.nextId, s, px⟩]⟩ := by
  have hmid := h.mid
  have hkept : ∀ ref ∈ kept, Open ops ref := fun ref href =>
    h.live ref (target.mem_iff.mpr (List.mem_append_right _ href))
  have hnodup := (target.map LiveRef.id).nodup_iff.mp h.nodup
  rw [List.map_append] at hnodup
  refine ⟨h.orderly.concat ⟨fun _ => ?_, fun _ => size⟩ (fun _ => h.toNat_nextId hops)
    (fun hold => by cases hold), ?_, hmid, ?_, ?_, ?_⟩
  · dsimp only
    omega
  · rw [length_newIds_new rfl]
    exact h.nextId_succ
  · rw [List.length_append, List.length_singleton]
    omega
  · rw [List.map_append, List.map_singleton]
    refine List.nodup_append.mpr ⟨(List.nodup_append.mp hnodup).2.1, List.nodup_singleton _, ?_⟩
    intro a ha b hb
    obtain ⟨ref, href, rfl⟩ := List.mem_map.mp ha
    obtain rfl := List.mem_singleton.mp hb
    exact (h.nextId_ne hops (hkept ref href)).symm
  · intro ref href
    rcases List.mem_append.mp href with hold | hlast
    · exact (hkept ref hold).concat_ne (h.nextId_ne hops (hkept ref hold))
    · obtain rfl := List.mem_singleton.mp hlast
      refine ⟨⟨_, List.mem_append_right _ (List.mem_singleton_self _), rfl, rfl, rfl⟩, ?_, ?_⟩
      · intro op hop hkind
        rcases List.mem_append.mp hop with hold | hlast
        · exact h.orderly.fresh hold g.nextId (h.toNat_nextId hops)
        · rw [List.mem_singleton.mp hlast] at hkind
          cases hkind
      · rw [told_concat, if_pos ⟨rfl, rfl⟩]

theorem market (hops : ops.length + 1 < 2 ^ 64) (rng : σ) (s : Side) {q : Qty}
    (size : 1 ≤ q ∧ q ≤ 100) :
    Inv (ops ++ [⟨g.nextId, 0, q, .market, s, .ioc⟩]) ⟨rng, g.mid, g.nextId + 1, g.live⟩ := by
  refine ⟨h.orderly.concat ⟨fun hpriced => (by cases hpriced), fun _ => size⟩
    (fun _ => h.toNat_nextId hops) (fun hold => by cases hold), ?_, h.mid, h.small, h.nodup, ?_⟩
  · rw [length_newIds_new rfl]
    exact h.nextId_succ
  · intro ref href
    exact (h.live ref href).concat_ne (h.nextId_ne hops (h.live ref href))

theorem cancel (rng : σ) {ref : LiveRef} {kept : List LiveRef}
    (target : g.live.Perm (ref :: kept)) :
    Inv (ops ++ [⟨ref.id, 0, 0, .cancel, ref.side, .gtc⟩]) ⟨rng, g.mid, g.nextId, kept⟩ := by
  have hnodup := (target.map LiveRef.id).nodup_iff.mp h.nodup
  rw [List.map_cons, List.nodup_cons] at hnodup
  have hlen := target.length_eq
  rw [List.length_cons] at hlen
  have hsmall := h.small
  have hlive : ∀ r ∈ ref :: kept, Open ops r := fun r hr => h.live r (target.mem_iff.mpr hr)
  refine ⟨h.orderly.concat ⟨fun hpriced => (by cases hpriced), fun hkind => absurd rfl hkind⟩
    (fun hnew => by cases hnew) (fun _ => ⟨ref.px, hlive ref List.mem_cons_self⟩), ?_, h.mid, ?_,
    hnodup.2, ?_⟩
  · rw [length_newIds_old rfl]
    exact h.nextId
  · dsimp only
    omega
  · intro r hr
    refine (hlive r (List.mem_cons_of_mem _ hr)).concat_ne ?_
    intro heq
    exact hnodup.1 (List.mem_map.mpr ⟨r, hr, heq.symm⟩)

theorem modify (rng : σ) {ref : LiveRef} {pre post : List LiveRef} {px : Int} {q : Qty}
    (target : g.live = pre ++ ref :: post) (near : 8992 ≤ px ∧ px ≤ 11008)
    (size : 1 ≤ q ∧ q ≤ 100) :
    Inv (ops ++ [⟨ref.id, px, q, .modify, ref.side, .gtc⟩])
      ⟨rng, g.mid, g.nextId, pre ++ { ref with px } :: post⟩ := by
  have hids : (pre ++ { ref with px } :: post).map LiveRef.id = g.live.map LiveRef.id := by
    rw [target, List.map_append, List.map_append]
    rfl
  have hlen := congrArg List.length hids
  rw [List.length_map, List.length_map] at hlen
  have hnodup := h.nodup
  have hsmall := h.small
  have hlive := h.live
  rw [target, List.map_append, List.map_cons, List.nodup_middle, List.nodup_cons,
    ← List.map_append] at hnodup
  rw [target] at hlive
  have href : Open ops ref := hlive ref (List.mem_append_right _ List.mem_cons_self)
  refine ⟨h.orderly.concat ⟨fun _ => near, fun _ => size⟩ (fun hnew => (by cases hnew))
    (fun _ => ⟨ref.px, href⟩), ?_, h.mid, ?_, ?_, ?_⟩
  · rw [length_newIds_old rfl]
    exact h.nextId
  · rwa [hlen]
  · rw [hids]
    exact h.nodup
  · have hother : ∀ r ∈ pre ++ post, Open ops r →
        Open (ops ++ [⟨ref.id, px, q, .modify, ref.side, .gtc⟩]) r := by
      intro r hr hopen
      refine hopen.concat_ne fun heq => hnodup.1 (List.mem_map.mpr ⟨r, hr, heq.symm⟩)
    intro r hr
    rcases List.mem_append.mp hr with hpre | hpost
    · exact hother r (List.mem_append_left _ hpre) (hlive r (List.mem_append_left _ hpre))
    · rcases List.mem_cons.mp hpost with rfl | hpost
      · exact href.concat (fun hkind => (by cases hkind)) (if_pos ⟨rfl, rfl⟩)
      · exact hother r (List.mem_append_right _ hpost)
          (hlive r (List.mem_append_right _ (List.mem_cons_of_mem _ hpost)))

/-- What one operation keeps. -/
theorem makes {g' : WorkloadGen σ} (hops : ops.length + 1 < 2 ^ 64) (hop : Makes g op g') :
    Inv (ops ++ [op]) g' := by
  have hmid := h.mid
  cases hop with
  | limit rng s px q tif evicted kept near size target room =>
      exact h.limit hops rng s near size tif target room
  | market rng s q size => exact h.market hops rng s size
  | cancel rng ref kept target => exact h.cancel rng target
  | resize rng ref q target size =>
      obtain ⟨pre, post, hsplit⟩ := List.append_of_mem target
      have hkept := h.modify rng hsplit (h.orderly.reach (h.live ref target)) size
      rwa [← hsplit] at hkept
  | reprice rng ref pre post px q target near size =>
      exact h.modify rng target (by omega) size

end Inv

/-- One turn of the loop. -/
theorem inv_step (i : ℕ) {g : WorkloadGen σ} (h : Inv ops g) (hops : ops.length + 1 < 2 ^ 64) :
    Inv (ops ++ [(step next g i).2]) (step next g i).1 := by
  obtain ⟨rng, mid, hmid, hmakes⟩ := step_makes next i h.mid h.small
  have hdrift : Inv ops (⟨rng, mid, g.nextId, g.live⟩ : WorkloadGen σ) :=
    ⟨h.orderly, h.nextId, hmid, h.small, h.nodup, h.live⟩
  exact hdrift.makes hops hmakes

theorem inv_new (rng : σ) : Inv [] ({ rng } : WorkloadGen σ) where
  orderly := ⟨rfl, fun _ h => (by cases h), fun pre op h => (by simp at h)⟩
  nextId := rfl
  mid := ⟨(by decide : (9000 : Int) ≤ 10000), (by decide : (10000 : Int) ≤ 11000)⟩
  small := Nat.zero_le _
  nodup := List.nodup_nil
  live _ h := by cases h

theorem length_generate (g : WorkloadGen σ) (n : ℕ) : (generate next n g).length = n := by
  rw [generate, Transition.length_outputs, List.length_range]

theorem inv_generate (rng : σ) (n : ℕ) (hn : n < 2 ^ 64) : Inv (generate next n { rng })
    (Transition.finalState (step next) { rng } (List.range n)) := by
  have hstep : ∀ (ops : List Op) (g : WorkloadGen σ) (i : ℕ), (ops.length < 2 ^ 64 → Inv ops g) →
      (ops ++ [(step next g i).2]).length < 2 ^ 64 →
        Inv (ops ++ [(step next g i).2]) (step next g i).1 := by
    intro ops g i h hops
    rw [List.length_append, List.length_singleton] at hops
    exact inv_step next i (h (by omega)) hops
  have hlen := length_generate next { rng } n
  have hrun := Transition.inv_outputs hstep (fun _ => inv_new rng) (List.range n)
  rw [generate] at hlen
  apply hrun
  rwa [List.nil_append, hlen]

/-- **A workload is orderly**, whatever is drawn, and the generator knows the open orders that it
may still cancel or modify, and what the engine was last told of them. -/
theorem generate_orderly (rng : σ) (n : ℕ) (hn : n < 2 ^ 64) :
    (generate next n { rng }).length = n ∧ Orderly (generate next n { rng }) ∧
      ∀ ref ∈ (Transition.finalState (step next) { rng } (List.range n)).live,
        Open (generate next n { rng }) ref :=
  have h := inv_generate next rng n hn
  ⟨length_generate next _ n, h.orderly, h.live⟩

/-- With a counter for the random numbers. -/
theorem generate_orderly_small :
    (generate (fun k : UInt64 => (k, k + 7)) 90 { rng := 3 }).length = 90 ∧
      Orderly (generate (fun k : UInt64 => (k, k + 7)) 90 { rng := 3 }) ∧
        ∀ ref ∈ (Transition.finalState (step fun k : UInt64 => (k, k + 7)) { rng := 3 }
          (List.range 90)).live, Open (generate (fun k : UInt64 => (k, k + 7)) 90 { rng := 3 }) ref :=
  generate_orderly _ 3 90 (by decide)

end runs

end WorkloadGen

end Bench

end Lob
