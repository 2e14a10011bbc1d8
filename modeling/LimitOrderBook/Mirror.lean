import LimitOrderBook.Reference
import LimitOrderBook.Snapshot
import LimitOrderBook.Transition

/-! # Bids and asks are mirror images

Reflecting the prices of the band, `px ↦ k - px`, and swapping the sides turns a book into another
book.  Every operation commutes with it: what a call does to the reflected book is the reflection
of what it does to the book (`Flat.call_mirror`).

The flat book has one matching rule for both sides, so there the fact is about order and limit
arithmetic alone; a market order is the place where the two differ, since its limit is a bound of
the 64-bit range or is computed from the best price.  The two sides of an engine use different
instructions and masks; as each holds the flat book, whole runs are mirror images too
(`mirror_run`). -/

namespace Lob

open KeyedQueue

/-! ### Reflections -/

def Resting.mirror (k : Int) (r : Resting) : Resting := { r with price := k - r.price }

def Event.mirror (k : Int) : Event → Event
  | .trade taker maker px qty => .trade taker maker (k - px) qty
  | .cancel id owner => .cancel id owner

def Op.mirror (k : Int) : Op → Op
  | .submitLimit id s px qty tif owner => .submitLimit id s.opp (k - px) qty tif owner
  | .submitMarket id s qty owner => .submitMarket id s.opp qty owner
  | .cancel id => .cancel id
  | .modify id px qty => .modify id (k - px) qty

def Flat.mirror (k : Int) (F : Flat) : Flat :=
  { bids := F.asks.map (Resting.mirror k), asks := F.bids.map (Resting.mirror k) }

def Walk.mirror (k : Int) (w : Walk) : Walk :=
  { w with queue := w.queue.map (Resting.mirror k), tape := w.tape.map (Event.mirror k) }

/-- The same answer, with the prices of its tape reflected. -/
def mirrorAnswer (k : Int) (a : Answer) : Answer := (a.1, a.2.map (Event.mirror k))

section rules

variable (k : Int)

@[simp] theorem Resting.mirror_id (r : Resting) : (r.mirror k).id = r.id := rfl

@[simp] theorem Resting.mirror_price (r : Resting) : (r.mirror k).price = k - r.price := rfl

@[simp] theorem Resting.mirror_qty (r : Resting) : (r.mirror k).qty = r.qty := rfl

@[simp] theorem Resting.mirror_owner (r : Resting) : (r.mirror k).owner = r.owner := rfl

theorem better_mirror (s : Side) (a b : Int) : better s.opp (k - a) (k - b) ↔ better s a b := by
  cases s <;> simp only [better, Side.opp] <;> omega

theorem crosses_mirror (s : Side) (p l : Int) :
    crosses s.opp (k - p) (k - l) = crosses s p l := by
  cases s <;> simp only [crosses, Side.opp] <;> exact decide_eq_decide.mpr (by omega)

theorem own_mirror (stp : Stp) (owner : Owner) (r : Resting) :
    (r.mirror k).Own stp owner ↔ r.Own stp owner := Iff.rfl

end rules

/-! ### Matching -/

section matching

variable {k : Int} {stp : Stp} {s : Side} {taker : OrderId} {limit limit' : Int} {owner : Owner}

/-- A reflected walk, with a limit that lets the same orders through. -/
theorem walk_mirror : ∀ (q : List Resting) (n : Qty),
    (∀ r ∈ q, crosses s.opp (k - r.price) limit' = crosses s r.price limit) →
    walk stp s.opp taker limit' owner (q.map (Resting.mirror k)) n =
      (walk stp s taker limit owner q n).mirror k
  | [], _, _ => rfl
  | r :: q, n, hcross => by
      have hr := hcross r List.mem_cons_self
      have ih := fun n => walk_mirror q n fun r' hr' => hcross r' (List.mem_cons_of_mem r hr')
      simp only [List.map_cons, walk, Resting.mirror_price, Resting.mirror_qty, Resting.mirror_id,
        Resting.mirror_owner, own_mirror, hr, ih]
      by_cases hstop : n = 0 ∨ crosses s r.price limit = false
      · simp only [if_pos hstop]
        rfl
      · by_cases hown : r.Own stp owner
        · by_cases hrej : stp = .rejectIncoming
          · simp only [if_neg hstop, if_pos hown, if_pos hrej]
            rfl
          · simp only [if_neg hstop, if_pos hown, if_neg hrej]
            rfl
        · by_cases hall : r.qty = min r.qty n
          · simp only [if_neg hstop, if_neg hown, if_pos hall]
            rfl
          · simp only [if_neg hstop, if_neg hown, if_neg hall]
            rfl

theorem sumReaches_mirror {px : Int} {qty : Qty} : ∀ (q : List Resting) (avail : UInt64),
    sumReaches s.opp (k - px) qty avail (q.map (Resting.mirror k)) = sumReaches s px qty avail q
  | [], _ => rfl
  | r :: q, avail => by
      have hhead : ((q.map (Resting.mirror k)).head?.map Resting.price = some (k - r.price)) ↔
          (q.head?.map Resting.price = some r.price) := by
        cases q with
        | nil => simp
        | cons r' q => simp
      simp only [List.map_cons, sumReaches, Resting.mirror_price, Resting.mirror_qty, crosses_mirror,
        hhead, sumReaches_mirror q]

theorem othersReach_mirror {px : Int} {qty : Qty} : ∀ (q : List Resting) (avail : UInt64),
    othersReach s.opp (k - px) qty stp owner avail (q.map (Resting.mirror k)) =
      othersReach s px qty stp owner avail q
  | [], _ => rfl
  | r :: q, avail => by
      simp only [List.map_cons, othersReach, Resting.mirror_price, Resting.mirror_qty,
        Resting.mirror_owner, crosses_mirror, othersReach_mirror q]

theorem fillable_mirror {px : Int} {qty : Qty} (q : List Resting) :
    fillable s.opp (k - px) qty stp owner (q.map (Resting.mirror k)) =
      fillable s px qty stp owner q := by
  simp only [fillable, sumReaches_mirror, othersReach_mirror]

end matching

/-! ### Books -/

/-- The band is its own reflection, and a market order protected at any of its prices is bounded
without overflow. -/
structure Config.Reflects (k : Int) (c : Config) : Prop where
  band : ∀ px, c.inBand (k - px) = c.inBand px
  pos : ∀ px, c.inBand px = true → 1 ≤ px
  le_max : ∀ px, c.inBand px = true → px ≤ kMaxPrice
  protected_le_max : ∀ px, c.inBand px = true → px + c.protection ≤ kMaxPrice

namespace Flat

variable {k : Int} {c : Config} {F : Flat}

theorem side_opp_mirror (s : Side) : (F.mirror k).side s.opp = (F.side s).map (Resting.mirror k) := by
  cases s <;> rfl

theorem withSide_mirror (s : Side) (q : List Resting) :
    (F.mirror k).withSide s.opp (q.map (Resting.mirror k)) = (F.withSide s q).mirror k := by
  cases s <;> rfl

theorem mem_ids_mirror {id : OrderId} : id ∈ (F.mirror k).ids ↔ id ∈ F.ids := by
  simp only [ids, all, mirror, List.map_append, List.map_map, List.mem_append]
  have hid : Resting.id ∘ Resting.mirror k = Resting.id := rfl
  rw [hid]
  exact or_comm

theorem remove_mirror (id : OrderId) : (F.mirror k).remove id = (F.remove id).mirror k := by
  simp only [remove, mirror, List.filter_map]
  rfl

theorem amend_mirror (id : OrderId) (n : Qty) : (F.mirror k).amend id n = (F.amend id n).mirror k := by
  have hmap : ∀ q : List Resting,
      (q.map (Resting.mirror k)).map (fun r => if r.id = id then { r with qty := n } else r) =
        (q.map fun r => if r.id = id then { r with qty := n } else r).map (Resting.mirror k) := by
    intro q
    rw [List.map_map, List.map_map]
    refine List.map_congr_left fun r _ => ?_
    by_cases hr : r.id = id
    · rw [Function.comp_apply, Function.comp_apply, if_pos hr, if_pos (show (r.mirror k).id = id from hr)]
      rfl
    · rw [Function.comp_apply, Function.comp_apply, if_neg hr, if_neg (show ¬ (r.mirror k).id = id from hr)]
  simp only [amend, mirror, hmap]

theorem rest_mirror (s : Side) (r : Resting) :
    (F.mirror k).rest s.opp (r.mirror k) = (F.rest s r).mirror k := by
  unfold rest
  rw [side_opp_mirror,
    enqueue_map (f := Resting.mirror k) (fun a b => better_mirror k s a.price b.price),
    withSide_mirror]

theorem find?_mirror (h : F.ids.Nodup) (id : OrderId) :
    (F.mirror k).find? id = (F.find? id).map fun x => (x.1.opp, x.2.mirror k) := by
  have hnd : (F.mirror k).ids.Nodup := by
    have hperm : (F.mirror k).ids.Perm F.ids := by
      simp only [ids, all, mirror, List.map_append, List.map_map]
      exact List.perm_append_comm
    exact hperm.nodup_iff.mpr h
  cases hf : F.find? id with
  | none => exact find?_eq_none.mpr fun hm => find?_eq_none.mp hf (mem_ids_mirror.mp hm)
  | some x =>
      obtain ⟨s, r⟩ := x
      obtain ⟨hr, rfl⟩ := find?_eq_some hf
      refine (find?_iff hnd).mpr ⟨?_, rfl⟩
      rw [side_opp_mirror]
      exact List.mem_map_of_mem hr

/-! ### Calls -/

section calls

variable {s : Side} {id : OrderId} {px : Int} {qty : Qty} {tif : Tif} {owner : Owner}

theorem execute_mirror : (F.mirror k).execute c s.opp id (k - px) qty tif owner =
    ((F.execute c s id px qty tif owner).1.mirror k, (F.execute c s id px qty tif owner).2.1,
      (F.execute c s id px qty tif owner).2.2.map (Event.mirror k)) := by
  have hside : (F.mirror k).side s.opp.opp = (F.side s.opp).map (Resting.mirror k) :=
    side_opp_mirror s.opp
  have hwalk : walk c.stp s.opp id (k - px) owner ((F.side s.opp).map (Resting.mirror k)) qty =
      (walk c.stp s id px owner (F.side s.opp) qty).mirror k :=
    walk_mirror (F.side s.opp) qty fun r _ => crosses_mirror k s r.price px
  unfold execute
  simp only [hside, fillable_mirror, hwalk]
  by_cases hfok : tif = .fok ∧ fillable s px qty c.stp owner (F.side s.opp) = false
  · simp only [if_pos hfok]
    rfl
  · simp only [if_neg hfok, Walk.mirror, withSide_mirror]
    by_cases hstop : (walk c.stp s id px owner (F.side s.opp) qty).stopped = true
    · simp only [if_pos hstop]
      rfl
    · by_cases hrest : (walk c.stp s id px owner (F.side s.opp) qty).remaining ≠ 0 ∧ tif = .gtc
      · simp only [if_neg hstop, if_pos hrest]
        rw [← rest_mirror]
        rfl
      · simp only [if_neg hstop, if_neg hrest]

/-- The limit of a reflected market order lets the same orders through. -/
theorem marketLimit_mirror (hc : c.Reflects k) (h : F.WF c) (s : Side) :
    F.marketLimit c s = none ∧ (F.mirror k).marketLimit c s.opp = none ∨
      ∃ limit limit', F.marketLimit c s = some limit ∧
        (F.mirror k).marketLimit c s.opp = some limit' ∧
        ∀ r ∈ F.side s.opp, crosses s.opp (k - r.price) limit' = crosses s r.price limit := by
  have hside : (F.mirror k).side s.opp.opp = (F.side s.opp).map (Resting.mirror k) :=
    side_opp_mirror s.opp
  unfold marketLimit
  rw [hside]
  by_cases hprot : 0 < c.protection
  · simp only [if_pos hprot]
    cases hq : F.side s.opp with
    | nil => exact Or.inl ⟨rfl, rfl⟩
    | cons ref q =>
        refine Or.inr ⟨_, _, rfl, rfl, fun r _ => ?_⟩
        have href := h.band s.opp ref (by rw [hq]; exact List.mem_cons_self)
        have href' : c.inBand (k - ref.price) = true := (hc.band _).trans href
        have h1 := hc.pos _ href
        have h2 := hc.pos _ href'
        have h3 := hc.protected_le_max _ href
        have h4 := hc.protected_le_max _ href'
        unfold kMaxPrice at h3 h4
        -- neither bound leaves the 64-bit range
        cases s with
        | bid =>
            have hlimit : wrapPrice (ref.price + c.protection) = ref.price + c.protection :=
              wrapPrice_eq (by omega) (by omega)
            have hlimit' : wrapPrice (k - ref.price - c.protection) = k - (ref.price + c.protection) :=
              (wrapPrice_eq (by omega) (by omega)).trans (by omega)
            simp only [Side.opp, Resting.mirror_price, hlimit, hlimit']
            exact crosses_mirror k .bid r.price _
        | ask =>
            have hlimit : wrapPrice (ref.price - c.protection) = ref.price - c.protection :=
              wrapPrice_eq (by omega) (by omega)
            have hlimit' : wrapPrice (k - ref.price + c.protection) = k - (ref.price - c.protection) :=
              (wrapPrice_eq (by omega) (by omega)).trans (by omega)
            simp only [Side.opp, Resting.mirror_price, hlimit, hlimit']
            exact crosses_mirror k .ask r.price _
  · simp only [if_neg hprot]
    refine Or.inr ⟨_, _, rfl, rfl, fun r hr => ?_⟩
    -- without protection every order of the band crosses
    have hband := h.band s.opp r hr
    have hband' : c.inBand (k - r.price) = true := (hc.band _).trans hband
    have h1 := hc.pos _ hband
    have h2 := hc.pos _ hband'
    have h3 := hc.le_max _ hband
    have h4 := hc.le_max _ hband'
    cases s <;> simp only [crosses, Side.opp, Side.marketPrice, kMinPrice, kMaxPrice] at * <;>
      exact decide_eq_decide.mpr (by omega)

variable (hc : c.Reflects k) (h : F.WF c)

include hc h

omit h in
theorem submitLimit_mirror : (F.mirror k).submitLimit c id s.opp (k - px) qty tif owner =
    ((F.submitLimit c id s px qty tif owner).1.mirror k, (F.submitLimit c id s px qty tif owner).2.1,
      (F.submitLimit c id s px qty tif owner).2.2.map (Event.mirror k)) := by
  unfold submitLimit
  simp only [hc.band, mem_ids_mirror, execute_mirror]
  split_ifs <;> rfl

theorem submitMarket_mirror : (F.mirror k).submitMarket c id s.opp qty owner =
    ((F.submitMarket c id s qty owner).1.mirror k, (F.submitMarket c id s qty owner).2.1,
      (F.submitMarket c id s qty owner).2.2.map (Event.mirror k)) := by
  have hside : (F.mirror k).side s.opp.opp = (F.side s.opp).map (Resting.mirror k) :=
    side_opp_mirror s.opp
  unfold submitMarket
  simp only [mem_ids_mirror]
  by_cases hbad : id = 0 ∨ qty = 0 ∨ id ∈ F.ids
  · simp only [if_pos hbad]
    rfl
  · simp only [if_neg hbad]
    rcases marketLimit_mirror hc h s with ⟨hnone, hnone'⟩ | ⟨limit, limit', hsome, hsome', hcross⟩
    · rw [hnone, hnone']
      rfl
    · rw [hsome, hsome']
      simp only [hside, walk_mirror _ _ hcross, Walk.mirror, withSide_mirror]

theorem modify_mirror : (F.mirror k).modify c id (k - px) qty =
    ((F.modify c id px qty).1.mirror k, (F.modify c id px qty).2.1,
      (F.modify c id px qty).2.2.map (Event.mirror k)) := by
  unfold modify
  rw [find?_mirror h.nodup, hc.band]
  cases hf : F.find? id with
  | none => rfl
  | some x =>
      obtain ⟨s, r⟩ := x
      have hpx : k - px = k - r.price ↔ px = r.price := by omega
      simp only [Option.map_some, Resting.mirror_price, Resting.mirror_qty, Resting.mirror_owner, hpx,
        remove_mirror, amend_mirror, execute_mirror]
      split_ifs <;> rfl

/-- **A call on the reflected book is the reflection of the call.** -/
theorem call_mirror (op : Op) : (F.mirror k).call c (op.mirror k) =
    ((F.call c op).1.mirror k, mirrorAnswer k (F.call c op).2) := by
  cases op with
  | submitLimit id s px qty tif owner =>
      simp only [Op.mirror, call, submitLimit_mirror hc]
      rfl
  | submitMarket id s qty owner =>
      simp only [Op.mirror, call, submitMarket_mirror hc h]
      rfl
  | cancel id =>
      simp only [Op.mirror, call, cancel, mem_ids_mirror, remove_mirror]
      split_ifs <;> rfl
  | modify id px qty =>
      simp only [Op.mirror, call, modify_mirror hc h]
      rfl

end calls

end Flat

/-! ### What is seen of a book -/

section views

variable {k : Int}

theorem total_mirror (q : List Resting) : total (q.map (Resting.mirror k)) = total q := by
  simp only [total, List.map_map]
  rfl

theorem level_mirror (px : Int) (q : List Resting) :
    level Resting.price (k - px) (q.map (Resting.mirror k)) =
      (level Resting.price px q).map (Resting.mirror k) := by
  have hp : (fun r : Resting => decide (r.price = k - px)) ∘ Resting.mirror k =
      fun r => decide (r.price = px) := by
    funext r
    exact decide_eq_decide.mpr (show k - r.price = k - px ↔ r.price = px by omega)
  rw [level, List.filter_map, hp]
  rfl

/-- The entry of a snapshot at the reflected price. -/
def mirrorEntry (k : Int) (e : Int × UInt64) : Int × UInt64 := (k - e.1, e.2)

theorem levelsOf_mirror : ∀ (n : ℕ) (q : List Resting),
    levelsOf n (q.map (Resting.mirror k)) = (levelsOf n q).map (mirrorEntry k)
  | 0, _ => by simp [levelsOf]
  | _ + 1, [] => by simp [levelsOf]
  | n + 1, r :: q => by
      have hlevel := level_mirror (k := k) r.price (r :: q)
      have hrest : (q.map (Resting.mirror k)).filter (fun r' => !decide (r'.price = k - r.price)) =
          (q.filter fun r' => !decide (r'.price = r.price)).map (Resting.mirror k) := by
        rw [List.filter_map]
        congr 2
        funext r'
        exact congrArg Bool.not
          (decide_eq_decide.mpr (show k - r'.price = k - r.price ↔ r'.price = r.price by omega))
      rw [List.map_cons] at hlevel ⊢
      rw [levelsOf, levelsOf, List.map_cons, Resting.mirror_price, hrest, levelsOf_mirror n, hlevel,
        total_mirror]
      rfl

/-- A best price, reflected; an empty side stays empty. -/
def mirrorBest (k : Int) (px : Int) : Int := if px = kNoPrice then kNoPrice else k - px

/-- What one book shows is the reflection of what the other shows. -/
structure MirrorView (k : Int) (b b' : OrderBook) : Prop where
  best : ∀ s, b'.best s.opp = mirrorBest k (b.best s)
  qtyAt : ∀ s px, b'.qtyAt s.opp (k - px) = b.qtyAt s px
  ordersAt : ∀ s px, b'.ordersAt s.opp (k - px) = b.ordersAt s px
  topLevels : ∀ s n, b'.topLevels s.opp n = (b.topLevels s n).map (mirrorEntry k)

theorem mirrorView_of_repr {c : Config} (hc : c.Reflects k) {b b' : OrderBook} {F : Flat}
    (h : Book.Repr c b F) (h' : Book.Repr c b' (F.mirror k)) : MirrorView k b b' where
  best s := by
    rw [h'.best, h.best, Flat.side_opp_mirror]
    cases hq : F.side s with
    | nil => rfl
    | cons r q =>
        have hpos := hc.pos _ (h.wf.band s r (by rw [hq]; exact List.mem_cons_self))
        have hne : r.price ≠ kNoPrice := by
          unfold kNoPrice
          omega
        exact (if_neg hne).symm
  qtyAt s px := by
    rw [h'.qtyAt, h.qtyAt, Flat.side_opp_mirror, level_mirror, total_mirror]
  ordersAt s px := by
    rw [h'.ordersAt, h.ordersAt, Flat.side_opp_mirror, level_mirror, List.length_map]
  topLevels s n := by
    rw [h'.topLevels, h.topLevels, Flat.topLevels, Flat.side_opp_mirror, levelsOf_mirror]
    rfl

end views

/-! ### Whole runs -/

namespace OrderBook

/-- The reflection of the band. -/
def axis (p : Params) : Int := p.bandLo + p.bandHi - 1

theorem config_reflects {p : Params} (hp : p.Valid) (hmax : p.bandHi ≤ kMaxPrice)
    (hfit : p.bandHi + p.protection ≤ kMaxPrice) : p.config.Reflects (axis p) := by
  have hlo := hp.lo_pos
  have hmem : ∀ px, p.inBand px = true ↔ p.bandLo ≤ px ∧ px < p.bandHi := by
    intro px
    simp only [Params.inBand, Bool.and_eq_true, decide_eq_true_eq]
  have hprot : p.config.protection = p.protection := rfl
  refine ⟨fun px => ?_, fun px hpx => ?_, fun px hpx => ?_, fun px hpx => ?_⟩
  · refine Bool.eq_iff_iff.mpr ?_
    show p.inBand (axis p - px) = true ↔ p.inBand px = true
    rw [hmem, hmem, axis]
    omega
  · have := (hmem px).mp hpx
    omega
  · have := (hmem px).mp hpx
    omega
  · have := (hmem px).mp hpx
    omega

/-- **Swapping the sides and reflecting the prices of a run reflects its answers and everything that
the book shows, after every call.** -/
theorem mirror_run (p : Params) (hp : p.Valid) (hmax : p.bandHi ≤ kMaxPrice)
    (hfit : p.bandHi + p.protection ≤ kMaxPrice) (ops : List Op) :
    answers p (ops.map (Op.mirror (axis p))) = (answers p ops).map (mirrorAnswer (axis p)) ∧
      ∀ pre ∈ ops.inits,
        MirrorView (axis p) (run p pre) (run p (pre.map (Op.mirror (axis p)))) := by
  have hc := config_reflects hp hmax hfit
  have hflat := fun is : List Op => Transition.run_map (m := Flat.mirror (axis p))
    (fun F op (h : F.WF p.config) => Flat.call_mirror hc h op) (fun F op h => h.call op)
    (Flat.empty_wf p.config) is
  refine ⟨?_, fun pre _ => ?_⟩
  · rw [(run_repr hp _).1, (run_repr hp _).1]
    exact (hflat ops).1
  · have hrepr := (run_repr hp (pre.map (Op.mirror (axis p)))).2
    have hfinal := (hflat pre).2
    exact mirrorView_of_repr hc (run_repr hp pre).2 (hfinal ▸ hrepr)

/-- A protected sweep, a reprice and a kill on a band that ends inside a bitmap word. -/
theorem mirror_run_small :
    let p : Params := { bandLo := 2, bandHi := 9, idMapSlots := 4, stp := .cancelResting,
                        protection := 1 }
    let ops : List Op := [.submitLimit 1 .ask 5 7 .gtc 3, .submitLimit 2 .ask 7 2 .gtc 0,
      .submitMarket 3 .bid 9 0, .submitLimit 4 .bid 4 6 .gtc 3, .modify 4 7 1]
    answers p (ops.map (Op.mirror (axis p))) = (answers p ops).map (mirrorAnswer (axis p)) ∧
      ∀ pre ∈ ops.inits,
        MirrorView (axis p) (run p pre) (run p (pre.map (Op.mirror (axis p)))) :=
  mirror_run _ ⟨by decide, by decide, by decide, by decide⟩ (by decide) (by decide) _

end OrderBook

end Lob
