import LimitOrderBook.Naive
import LimitOrderBook.Refine

/-! # The reference engine is the flat book without owners -/

namespace Lob

open KeyedQueue

namespace NaiveSide

variable {s t : Side}

/-! ### A side as one queue -/

def toResting (px : Int) (o : NaiveOrder) : Resting := ⟨o.id, px, o.qty, 0⟩

def flatten (es : List (Int × List NaiveOrder)) : List Resting :=
  es.flatMap fun e => e.2.map (toResting e.1)

@[simp] theorem flatten_nil : flatten [] = [] := rfl

@[simp] theorem flatten_cons (e : Int × List NaiveOrder) (es : List (Int × List NaiveOrder)) :
    flatten (e :: es) = e.2.map (toResting e.1) ++ flatten es := rfl

@[simp] theorem flatten_append (es₁ es₂ : List (Int × List NaiveOrder)) :
    flatten (es₁ ++ es₂) = flatten es₁ ++ flatten es₂ := List.flatMap_append

theorem mem_flatten {es : List (Int × List NaiveOrder)} {r : Resting} :
    r ∈ flatten es ↔ ∃ e ∈ es, ∃ o ∈ e.2, toResting e.1 o = r := by
  simp only [flatten, List.mem_flatMap, List.mem_map]

/-- Every level on the map has orders. -/
def NoEmpty (m : NaiveSide t) : Prop := ∀ e ∈ m.entries, e.2 ≠ []

section setLevel

variable {m : NaiveSide t} {es₁ es₂ : List (Int × List NaiveOrder)} {px : Int}
  {v lvl : List NaiveOrder}

theorem flatten_setLevel (h : m.entries = es₁ ++ (px, v) :: es₂) :
    flatten (m.setLevel px lvl).entries =
      flatten es₁ ++ (lvl.map (toResting px) ++ flatten es₂) := by
  unfold setLevel
  split_ifs with he
  · rw [OrdMap.entries_erase_of_split h, flatten_append, List.isEmpty_iff.mp he]
    rfl
  · rw [OrdMap.entries_alter_of_split h, flatten_append, flatten_cons]

theorem NoEmpty.setLevel (hm : m.NoEmpty) (h : m.entries = es₁ ++ (px, v) :: es₂) :
    (m.setLevel px lvl).NoEmpty := by
  have hother : ∀ e ∈ es₁ ++ es₂, e.2 ≠ [] := by
    intro e he
    refine hm e ?_
    rw [h]
    rcases List.mem_append.mp he with he | he
    · exact List.mem_append_left _ he
    · exact List.mem_append_right _ (List.mem_cons_of_mem _ he)
  unfold NaiveSide.setLevel NoEmpty
  split_ifs with he
  · rw [OrdMap.entries_erase_of_split h]
    exact hother
  · rw [OrdMap.entries_alter_of_split h]
    intro e hm
    rcases List.mem_append.mp hm with hm | hm
    · exact hother e (List.mem_append_left _ hm)
    · rcases List.mem_cons.mp hm with rfl | hm
      · simpa using he
      · exact hother e (List.mem_append_right _ hm)

end setLevel

/-! ### Matching -/

section matching

variable {taker : OrderId} {px limit : Int} {want : Qty}

theorem not_own_none {owner : Owner} {r : Resting} : ¬ r.Own .none owner := fun h => h.1 rfl

theorem not_lt_self (a : UInt32) : ¬ a < a := by
  rw [UInt32.lt_iff_toNat_lt]
  omega

theorem fillLevel_done (n : ℕ) (lvl : List NaiveOrder) :
    fillLevel taker px want n lvl want = ⟨lvl, want, []⟩ := by
  cases n with
  | zero => rfl
  | succ n =>
      cases lvl with
      | nil => rfl
      | cons top lvl => rw [fillLevel, if_neg (not_lt_self want)]

/-- The inner loop walks its level. -/
theorem fillLevel_spec (taker : OrderId) (hcross : crosses s px limit = true) :
    ∀ (n : ℕ) (lvl : List NaiveOrder) (k : Qty), k ≤ want → lvl.length < n →
    let w := fillLevel taker px want n lvl (want - k)
    let W := walk .none s taker limit 0 (lvl.map (toResting px)) k
    w.lvl.map (toResting px) = W.queue ∧ w.filled = want - W.remaining ∧ w.tape = W.tape
  | n + 1, [], k, _, _ => ⟨rfl, rfl, rfl⟩
  | n + 1, top :: lvl, k, hk, hn => by
      have hn' : lvl.length < n := by simpa using hn
      by_cases hk0 : k = 0
      · subst hk0
        rw [UInt32.sub_zero, fillLevel_done, walk_zero]
        exact ⟨rfl, (UInt32.sub_zero _).symm, rfl⟩
      have hgo : ¬ (k = 0 ∨ crosses s (toResting px top).price limit = false) := by
        rw [show (toResting px top).price = px from rfl, hcross]
        simpa using hk0
      have hmore : want - k < want := (filled_lt_iff hk).mpr hk0
      simp only [fillLevel, if_pos hmore, sub_sub_self, List.map_cons]
      rcases Nat.lt_or_ge k.toNat top.qty.toNat with hlt | hge
      · -- the taker is done at this order
        have hne : ¬ top.qty - k = 0 := by
          refine UInt32.sub_ne_zero ?_
          rintro rfl
          exact Nat.lt_irrefl _ hlt
        rw [min_eq_of_lt hlt, if_neg hne, UInt32.sub_add_cancel, fillLevel_done,
          walk_part hgo not_own_none hlt]
        exact ⟨rfl, (UInt32.sub_zero _).symm, rfl⟩
      · have hle : k - top.qty ≤ want := by
          rw [UInt32.le_iff_toNat_le, UInt32.toNat_sub_of_le _ _ hge]
          exact (Nat.sub_le _ _).trans hk
        rw [min_eq_of_le hge, if_pos (UInt32.sub_self _), sub_add_eq_sub_sub,
          walk_full hgo not_own_none hge]
        obtain ⟨h1, h2, h3⟩ := fillLevel_spec taker hcross n lvl (k - top.qty) hle hn'
        exact ⟨h1, h2, by rw [h3]; rfl⟩

theorem matchLevels_done {ok : Int → Bool} (n : ℕ) (m : NaiveSide t) :
    matchLevels ok taker want n m want = ⟨m, want, []⟩ := by
  cases n with
  | zero => rfl
  | succ n => rw [matchLevels, if_neg (not_lt_self want)]

theorem walk_none_stopped {owner : Owner} (q : List Resting) (k : Qty) :
    (walk .none s taker limit owner q k).stopped = false := by
  by_contra h
  have hstp := (walk_stopped q k (Bool.not_eq_false _ ▸ h)).1
  cases hstp

/-- The outer loop walks the whole side. -/
theorem matchLevels_spec (s : Side) (taker : OrderId) (limit : Int) {ok : Int → Bool} :
    ∀ (n : ℕ) (m : NaiveSide t) (k : Qty), k ≤ want →
    m.entries.length < n → m.NoEmpty → (∀ e ∈ m.entries, ok e.1 = crosses s e.1 limit) →
    let r := matchLevels ok taker want n m (want - k)
    let W := walk .none s taker limit 0 (flatten m.entries) k
    flatten r.side.entries = W.queue ∧ r.filled = want - W.remaining ∧ r.tape = W.tape ∧
      r.side.NoEmpty
  | n + 1, m, k, hk, hn, hm, hok => by
      by_cases hk0 : k = 0
      · subst hk0
        rw [UInt32.sub_zero, matchLevels_done, walk_zero]
        exact ⟨rfl, (UInt32.sub_zero _).symm, rfl, hm⟩
      have hmore : want - k < want := (filled_lt_iff hk).mpr hk0
      cases he : m.entries with
      | nil =>
          simp only [matchLevels, if_pos hmore, he]
          exact ⟨rfl, rfl, rfl, hm⟩
      | cons e es =>
          obtain ⟨px, lvl⟩ := e
          have hokpx : ok px = crosses s px limit :=
            hok (px, lvl) (by rw [he]; exact List.mem_cons_self)
          simp only [matchLevels, if_pos hmore, he, hokpx, flatten_cons]
          cases hcross : crosses s px limit with
          | false =>
              have hlvl : lvl ≠ [] := hm (px, lvl) (by rw [he]; exact List.mem_cons_self)
              obtain ⟨o, lvl', rfl⟩ := List.exists_cons_of_ne_nil hlvl
              rw [List.map_cons, List.cons_append, walk_stop (Or.inr hcross)]
              exact ⟨by rw [if_neg Bool.false_ne_true, he]; rfl, by rw [if_neg Bool.false_ne_true],
                by rw [if_neg Bool.false_ne_true], by rw [if_neg Bool.false_ne_true]; exact hm⟩
          | true =>
              have hsplit : m.entries = [] ++ (px, lvl) :: es := he
              obtain ⟨h1, h2, h3⟩ := fillLevel_spec taker hcross (lvl.length + 1) lvl k hk
                (Nat.lt_succ_self _)
              have hprice : ∀ r ∈ (walk .none s taker limit 0 (lvl.map (toResting px)) k).queue,
                  r.price = px := by
                rw [← h1]
                intro r hr
                obtain ⟨o, -, rfl⟩ := List.mem_map.mp hr
                rfl
              rw [walk_append]
              simp only [if_true, h2]
              by_cases hnil : (walk .none s taker limit 0 (lvl.map (toResting px)) k).queue = []
              · -- the level is used up, and leaves the map
                have hlvl : (fillLevel taker px want (lvl.length + 1) lvl (want - k)).lvl = [] :=
                  List.map_eq_nil_iff.mp (h1.trans hnil)
                have hes : (m.setLevel px
                    (fillLevel taker px want (lvl.length + 1) lvl (want - k)).lvl).entries = es := by
                  rw [hlvl]
                  exact OrdMap.entries_erase_of_split hsplit
                have hlen : es.length < n := by
                  rw [he] at hn
                  simpa using hn
                obtain ⟨r1, r2, r3, r4⟩ := matchLevels_spec s taker limit n _ _
                  (UInt32.le_trans (walk_remaining_le _ _) hk) (by rw [hes]; exact hlen)
                  (hm.setLevel hsplit)
                  (fun e h => hok e (by rw [he]; exact List.mem_cons_of_mem _ (hes ▸ h)))
                rw [hes] at r1 r2 r3
                rw [if_pos hnil]
                exact ⟨r1, r2, by rw [← r3, h3], r4⟩
              · have hzero : (walk .none s taker limit 0 (lvl.map (toResting px)) k).remaining = 0 := by
                  rcases walk_level hcross hprice with h | h | h
                  · exact absurd h hnil
                  · rw [walk_none_stopped] at h
                    cases h
                  · exact h
                rw [if_neg hnil, hzero, UInt32.sub_zero, matchLevels_done]
                refine ⟨?_, rfl, by rw [List.append_nil, h3],
                  hm.setLevel hsplit⟩
                rw [flatten_setLevel hsplit, h1]
                rfl

end matching

/-! ### Resting -/

theorem mem_flatten_price {es : List (Int × List NaiveOrder)} {r : Resting} {P : Int → Prop}
    (h : ∀ e ∈ es, P e.1) (hr : r ∈ flatten es) : P r.price := by
  obtain ⟨e, he, o, -, rfl⟩ := mem_flatten.mp hr
  exact h e he

theorem flatten_alterEntries (px : Int) (o : NaiveOrder) : ∀ {es : List (Int × List NaiveOrder)},
    es.Pairwise (fun a b => better t a.1 b.1) →
    flatten (OrdMap.alterEntries (better t) px (fun lvl => lvl.getD [] ++ [o]) es) =
      enqueue (better t) Resting.price (toResting px o) (flatten es)
  | [], _ => rfl
  | (k, v) :: es, h => by
      obtain ⟨hhead, htail⟩ := List.pairwise_cons.mp h
      have hv : ∀ r ∈ v.map (toResting k), r.price = k := by
        intro r hr
        obtain ⟨o, -, rfl⟩ := List.mem_map.mp hr
        rfl
      unfold OrdMap.alterEntries
      split_ifs with h1 h2
      · have hall : ∀ r ∈ flatten ((k, v) :: es), better t px r.price := by
          intro r hr
          refine mem_flatten_price (P := better t px) ?_ hr
          intro e he
          rcases List.mem_cons.mp he with rfl | he
          · exact h1
          · exact IsTrans.trans _ _ _ h1 (hhead e he)
        rw [enqueue_of_lt hall]
        rfl
      · have hnot : ∀ r ∈ v.map (toResting k), ¬ better t px r.price := by
          intro r hr
          rw [hv r hr]
          exact h1
        rw [flatten_cons, flatten_cons, flatten_alterEntries px o htail]
        exact (enqueue_append hnot _).symm
      · have hk : k = px := Std.Trichotomous.trichotomous (r := better t) _ _ h2 h1
        subst hk
        have hnot : ∀ r ∈ v.map (toResting k), ¬ better t k r.price := by
          intro r hr
          rw [hv r hr]
          exact h1
        have hes : ∀ r ∈ flatten es, better t k r.price :=
          fun r hr => mem_flatten_price (P := better t k) hhead hr
        rw [flatten_cons, flatten_cons]
        refine Eq.trans ?_ (enqueue_append hnot _).symm
        rw [enqueue_of_lt hes]
        simp

/-- A level that gains an order has orders. -/
theorem NoEmpty.push {m : NaiveSide t} (hm : m.NoEmpty) (px : Int) (o : NaiveOrder) :
    NoEmpty (m.alter px fun lvl => lvl.getD [] ++ [o]) := by
  rintro ⟨k, v⟩ he hv
  have hfind := OrdMap.find?_eq_some.mpr he
  rw [OrdMap.find?_alter] at hfind
  split_ifs at hfind with hk
  · have hnil : (m.find? px).getD [] ++ [o] = [] := (Option.some.inj hfind).trans hv
    simp at hnil
  · exact hm (k, v) (OrdMap.find?_eq_some.mp hfind) hv

/-! ### Searching -/

section search

variable {m : NaiveSide t} {id : OrderId} {px : Int} {o : NaiveOrder}

theorem find_eq_none : m.find id = none ↔ ∀ r ∈ flatten m.entries, r.id ≠ id := by
  simp only [find, List.findSome?_eq_none_iff, Option.map_eq_none_iff, List.find?_eq_none,
    decide_eq_true_eq]
  constructor
  · intro h r hr
    obtain ⟨e, he, o, ho, rfl⟩ := mem_flatten.mp hr
    exact h e he o ho
  · intro h e he o ho
    exact h _ (mem_flatten.mpr ⟨e, he, o, ho, rfl⟩)

/-- Where the search ends. -/
theorem find_eq_some (h : m.find id = some (px, o)) : ∃ es₁ v₁ v₂ es₂,
    m.entries = es₁ ++ (px, v₁ ++ o :: v₂) :: es₂ ∧ o.id = id ∧ ∀ o' ∈ v₁, o'.id ≠ id := by
  obtain ⟨es₁, e, es₂, hes, hfind, -⟩ := List.findSome?_eq_some_iff.mp h
  obtain ⟨o', ho', heq⟩ := Option.map_eq_some_iff.mp hfind
  cases heq
  obtain ⟨hid, v₁, v₂, hv, hv₁⟩ := List.find?_eq_some_iff_append.mp ho'
  refine ⟨es₁, v₁, v₂, es₂, ?_, by simpa using hid, fun o' ho' => by simpa using hv₁ o' ho'⟩
  rw [hes, ← hv]

/-- What the search finds on a side whose ids are distinct, and the edits there. -/
theorem flatten_of_find (h : m.find id = some (px, o))
    (hnd : ((flatten m.entries).map Resting.id).Nodup) :
    toResting px o ∈ flatten m.entries ∧ o.id = id ∧ (m.eraseFrom id).2 = true ∧
      flatten (m.eraseFrom id).1.entries =
        (flatten m.entries).filter (fun r => decide (r.id ≠ id)) ∧
      ∀ qty, flatten (m.alter px fun lvl => setQty id qty (lvl.getD [])).entries =
        (flatten m.entries).map fun r => if r.id = id then { r with qty := qty } else r := by
  obtain ⟨es₁, v₁, v₂, es₂, hes, hid, hv₁⟩ := find_eq_some h
  have hflat : flatten m.entries = (flatten es₁ ++ v₁.map (toResting px)) ++
      toResting px o :: (v₂.map (toResting px) ++ flatten es₂) := by
    rw [hes]
    simp
  have hrid : (toResting px o).id = id := hid
  have hne : ∀ r ∈ (flatten es₁ ++ v₁.map (toResting px)) ++
      (v₂.map (toResting px) ++ flatten es₂), r.id ≠ id := by
    have hnd' : (ptrs (fun k => k) ((flatten es₁ ++ v₁.map (toResting px)) ++
        toResting px o :: (v₂.map (toResting px) ++ flatten es₂))).Nodup := hflat ▸ hnd
    intro r hr
    rw [← hid]
    exact ptr_ne_of_nodup hnd' r hr
  have hne₁ := fun r hr => hne r (List.mem_append_left _ hr)
  have hne₂ := fun r hr => hne r (List.mem_append_right _ hr)
  have herase : (v₁ ++ o :: v₂).eraseP (fun o => decide (o.id = id)) = v₁ ++ v₂ := by
    rw [List.eraseP_append_right _ (by simpa using hv₁), List.eraseP_cons_of_pos (by simpa using hid)]
  refine ⟨by rw [hflat]; simp, hid, by rw [eraseFrom, h], ?_, fun qty => ?_⟩
  · rw [eraseFrom, h]
    simp only [OrdMap.find?_of_split hes, Option.getD_some, herase]
    rw [flatten_setLevel hes, hflat, List.filter_append, List.filter_cons_of_neg (by simp [hrid]),
      List.filter_eq_self.mpr (by simpa using hne₁), List.filter_eq_self.mpr (by simpa using hne₂)]
    simp
  · have hset : setQty id qty (v₁ ++ o :: v₂) = v₁ ++ { o with qty := qty } :: v₂ := by
      clear hes hflat hne hne₁ hne₂ herase
      induction v₁ with
      | nil => simp [setQty, hid]
      | cons o' v₁ ih =>
          have ih' := ih fun o'' ho'' => hv₁ o'' (List.mem_cons_of_mem _ ho'')
          simp [setQty, hv₁ o' List.mem_cons_self, ih']
    have hsame : ∀ q : List Resting, (∀ r ∈ q, r.id ≠ id) →
        (q.map fun r => if r.id = id then { r with qty := qty } else r) = q := fun q hq =>
      (List.map_congr_left fun r hr => if_neg (hq r hr)).trans (List.map_id _)
    rw [OrdMap.entries_alter_of_split hes, Option.getD_some, hset, hflat, List.map_append,
      List.map_cons, hsame _ hne₁, hsame _ hne₂, if_pos hrid]
    simp [toResting]

theorem NoEmpty.eraseFrom (hm : m.NoEmpty) : (m.eraseFrom id).1.NoEmpty := by
  unfold NaiveSide.eraseFrom
  split
  · exact hm
  · next px o h =>
      obtain ⟨es₁, v₁, v₂, es₂, hes, -⟩ := find_eq_some h
      exact hm.setLevel hes

theorem NoEmpty.setQty (hm : m.NoEmpty) (h : m.find id = some (px, o)) (qty : Qty) :
    NoEmpty (m.alter px fun lvl => NaiveSide.setQty id qty (lvl.getD [])) := by
  obtain ⟨es₁, v₁, v₂, es₂, hes, -⟩ := find_eq_some h
  have hne : ∀ lvl, lvl ≠ [] → NaiveSide.setQty id qty lvl ≠ [] := by
    intro lvl hl
    obtain ⟨o, l, rfl⟩ := List.exists_cons_of_ne_nil hl
    unfold NaiveSide.setQty
    split_ifs <;> simp
  rintro ⟨k, v⟩ he hv
  have hfind := OrdMap.find?_eq_some.mpr he
  rw [OrdMap.find?_alter] at hfind
  split_ifs at hfind with hk
  · rw [OrdMap.find?_of_split hes] at hfind
    exact hne _ (by simp) ((Option.some.inj hfind).trans hv)
  · exact hm (k, v) (OrdMap.find?_eq_some.mp hfind) hv

end search

/-! ### Sums -/

/-- The crossing part of a queue. -/
def crossing (s : Side) (limit : Int) (q : List Resting) : List Resting :=
  q.takeWhile fun r => crosses s r.price limit

theorem foldl_qty (lvl : List NaiveOrder) (px : Int) (n : UInt64) :
    lvl.foldl (fun n o => n + o.qty.toUInt64) n =
      n + UInt64.ofNat (total (lvl.map (toResting px))) := by
  induction lvl generalizing n with
  | nil => simp
  | cons o lvl ih =>
      have ho : (toResting px o).qty = o.qty := rfl
      rw [List.foldl_cons, ih, List.map_cons, total_cons, UInt64.ofNat_add, ho,
        UInt64.ofNat_uInt32ToNat, UInt64.add_assoc]

/-- `crossable_qty` is the sum over the crossing part, modulo `2 ^ 64`. -/
theorem crossableFrom_eq (s : Side) (limit : Int) : ∀ (es : List (Int × List NaiveOrder))
    (n : UInt64), (∀ e ∈ es, e.2 ≠ []) →
    crossableFrom (fun px => crosses s px limit) n es =
      n + UInt64.ofNat (total (crossing s limit (flatten es)))
  | [], n, _ => by simp [crossableFrom, crossing]
  | (px, lvl) :: es, n, hne => by
      have htail : ∀ e ∈ es, e.2 ≠ [] := fun e he => hne e (List.mem_cons_of_mem _ he)
      rw [crossableFrom, flatten_cons, crossing]
      cases hc : crosses s px limit with
      | true =>
          have hall : ∀ r ∈ lvl.map (toResting px), crosses s r.price limit = true := by
            intro r hr
            obtain ⟨o, -, rfl⟩ := List.mem_map.mp hr
            exact hc
          rw [List.takeWhile_append_of_pos hall, if_pos rfl, crossableFrom_eq s limit es _ htail,
            foldl_qty lvl px, total_append, UInt64.ofNat_add, UInt64.add_assoc]
          rfl
      | false =>
          obtain ⟨o, l, rfl⟩ := List.exists_cons_of_ne_nil
            (show lvl ≠ [] from hne (px, lvl) List.mem_cons_self)
          have ho : crosses s (toResting px o).price limit = false := hc
          simp [ho]

end NaiveSide

/-- The early exits of the level-by-level sum do not change its answer. -/
theorem sumReaches_eq (s : Side) (limit : Int) (qty : Qty) : ∀ (q : List Resting) (avail : UInt64),
    avail.toNat + total (NaiveSide.crossing s limit q) < 2 ^ 64 →
    sumReaches s limit qty avail q =
      decide (qty.toNat ≤ avail.toNat + total (NaiveSide.crossing s limit q))
  | [], avail, _ => by
      rw [sumReaches, decide_eq_decide]
      simp [NaiveSide.crossing, UInt64.le_iff_toNat_le]
  | r :: q, avail, hlt => by
      rw [sumReaches]
      cases hc : crosses s r.price limit with
      | false =>
          rw [if_neg Bool.false_ne_true, decide_eq_decide]
          simp [NaiveSide.crossing, hc, UInt64.le_iff_toNat_le]
      | true =>
          have hcr : NaiveSide.crossing s limit (r :: q) = r :: NaiveSide.crossing s limit q := by
            simp [NaiveSide.crossing, hc]
          rw [hcr, total_cons] at hlt ⊢
          have hsum : (avail + r.qty.toUInt64).toNat = avail.toNat + r.qty.toNat := by
            rw [UInt64.toNat_add, UInt32.toNat_toUInt64]
            omega
          have ih := sumReaches_eq s limit qty q (avail + r.qty.toUInt64) (by rw [hsum]; omega)
          rw [hsum, Nat.add_assoc] at ih
          simp only [if_true, ih]
          split_ifs with h1 h2
          · rfl
          · rw [UInt64.le_iff_toNat_le, hsum, UInt32.toNat_toUInt64] at h2
            exact (decide_eq_true (by omega)).symm
          · rfl

/-! ### Owners do not matter without self-trade prevention -/

def Resting.anon (r : Resting) : Resting := { r with owner := 0 }

theorem walk_anon (s : Side) (taker : OrderId) (limit : Int) (owner : Owner) :
    ∀ (q : List Resting) (n : Qty),
    walk .none s taker limit 0 (q.map Resting.anon) n =
      { walk .none s taker limit owner q n with
        queue := (walk .none s taker limit owner q n).queue.map Resting.anon }
  | [], _ => rfl
  | r :: q, n => by
      have hown : ∀ (o : Owner) (r : Resting), ¬ r.Own .none o := fun o r h => h.1 rfl
      rw [List.map_cons, walk, walk]
      simp only [if_neg (hown _ _), walk_anon s taker limit owner q, Resting.anon]
      split_ifs <;> simp [Resting.anon]

theorem total_anon (q : List Resting) : total (q.map Resting.anon) = total q := by
  rw [total, List.map_map]
  rfl

theorem NaiveSide.crossing_anon (s : Side) (limit : Int) (q : List Resting) :
    NaiveSide.crossing s limit (q.map Resting.anon) =
      (NaiveSide.crossing s limit q).map Resting.anon := List.takeWhile_map

namespace NaiveBook

open NaiveSide

/-- The reference engine `b` holds the flat book `F`, but for the owners. -/
structure Sim (c : Config) (b : NaiveBook) (F : Flat) : Prop where
  flat : ∀ s, flatten (b.side s).entries = (F.side s).map Resting.anon
  noEmpty : ∀ s, (b.side s).NoEmpty
  protection : b.protection = c.protection

namespace Sim

variable {c : Config} {b : NaiveBook} {F : Flat} {s : Side} {id : OrderId} {qty : Qty}
  {owner : Owner} {px limit : Int}

theorem withSide (h : Sim c b F) {m : NaiveSide s} {q : List Resting}
    (hq : flatten m.entries = q.map Resting.anon) (hm : m.NoEmpty) :
    Sim c (b.withSide s m) (F.withSide s q) := by
  have hf := h.flat
  have hn := h.noEmpty
  refine ⟨fun t => ?_, fun t => ?_, ?_⟩
  · cases s <;> cases t
    exacts [hq, hf .ask, hf .bid, hq]
  · cases s <;> cases t
    exacts [hm, hn .ask, hn .bid, hm]
  · cases s <;> exact h.protection

theorem matchOrders (h : Sim c b F) (hstp : c.stp = .none) (id : OrderId) (qty : Qty)
    (owner : Owner) (limit : Int) (ok : Int → Bool)
    (hok : ∀ r ∈ F.side s.opp, ok r.price = crosses s r.price limit) :
    let m := (b.side s.opp).matchOrders id qty ok
    let W := walk c.stp s id limit owner (F.side s.opp) qty
    Sim c (b.withSide s.opp m.side) (F.withSide s.opp W.queue) ∧ m.filled = qty - W.remaining ∧
      m.tape = W.tape := by
  have hok' : ∀ e ∈ (b.side s.opp).entries, ok e.1 = crosses s e.1 limit := by
    intro e he
    obtain ⟨o, l, hl⟩ := List.exists_cons_of_ne_nil (h.noEmpty s.opp e he)
    have hmem : toResting e.1 o ∈ (F.side s.opp).map Resting.anon := by
      rw [← h.flat]
      exact mem_flatten.mpr ⟨e, he, o, by rw [hl]; exact List.mem_cons_self, rfl⟩
    obtain ⟨r, hr, hro⟩ := List.mem_map.mp hmem
    have hprice : r.price = e.1 := congrArg Resting.price hro
    rw [← hprice]
    exact hok r hr
  obtain ⟨h1, h2, h3, h4⟩ := matchLevels_spec s id limit ((b.side s.opp).entries.length + 1)
    (b.side s.opp) qty (UInt32.le_refl qty) (Nat.lt_succ_self _) (h.noEmpty s.opp) hok'
  rw [UInt32.sub_self, h.flat, walk_anon s id limit owner] at h1 h2 h3
  rw [UInt32.sub_self] at h4
  rw [hstp]
  exact ⟨h.withSide h1 h4, h2, h3⟩

theorem crossable_lt_iff (h : Sim c b F) (hstp : c.stp = .none)
    (hsmall : (F.side s.opp).length < 2 ^ 32) :
    b.crossableQty s px < qty.toUInt64 ↔
      fillable s px qty c.stp owner (F.side s.opp) = false := by
  have hlen : (crossing s px (F.side s.opp)).length < 2 ^ 32 :=
    Nat.lt_of_le_of_lt (List.takeWhile_sublist _).length_le hsmall
  have hlt := total_lt hlen
  have hsum : (b.crossableQty s px).toNat = total (crossing s px (F.side s.opp)) := by
    rw [crossableQty, crossableFrom_eq s px _ _ (h.noEmpty s.opp), h.flat, crossing_anon, total_anon,
      UInt64.zero_add, UInt64.toNat_ofNat_of_lt' hlt]
  have hz : (0 : UInt64).toNat = 0 := rfl
  rw [fillable, if_pos hstp, sumReaches_eq s px qty _ _ (by rw [hz]; omega), hz, Nat.zero_add,
    decide_eq_false_iff_not, UInt64.lt_iff_toNat_lt, hsum, UInt32.toNat_toUInt64, Nat.not_le]

theorem rest (h : Sim c b F) (s : Side) (r : Resting) :
    Sim c (b.rest s r.id r.price r.qty) (F.rest s r) := by
  refine h.withSide ?_ ((h.noEmpty s).push _ _)
  refine (flatten_alterEntries _ _ (b.side s).sorted).trans ?_
  rw [h.flat]
  exact enqueue_map (f := Resting.anon) (fun _ _ => Iff.rfl) r (F.side s)

theorem firstKey? (h : Sim c b F) (s : Side) :
    (b.side s).firstKey? = (F.side s).head?.map Resting.price := by
  have hflat := h.flat s
  unfold OrdMap.firstKey?
  cases he : (b.side s).entries with
  | nil =>
      rw [he] at hflat
      rw [List.map_eq_nil_iff.mp hflat.symm]
      rfl
  | cons e es =>
      obtain ⟨o, l, hl⟩ := List.exists_cons_of_ne_nil
        (h.noEmpty s e (by rw [he]; exact List.mem_cons_self))
      rw [he, flatten_cons, hl] at hflat
      obtain ⟨r, q, hq, hr, -⟩ := List.map_eq_cons_iff.mp hflat.symm
      have hprice : r.price = e.1 := congrArg Resting.price hr
      simp [hq, hprice]

/-! ### Calls -/

theorem crosses_marketPrice {s : Side} {px : Int} (h : 0 < px ∧ px ≤ kMaxPrice) :
    crosses s px s.marketPrice = true := by
  have hmin : kMinPrice ≤ 0 := by decide
  cases s with
  | bid => exact decide_eq_true h.2
  | ask => exact decide_eq_true (by simp only [Side.marketPrice]; omega)

/-- The prices that the flat book accepts, to the reference engine. -/
structure Band (c : Config) : Prop where
  stp : c.stp = .none
  pos : ∀ px, c.inBand px = true → 0 < px ∧ px ≤ kMaxPrice

theorem band_iff (hc : Band c) (hpx : c.inBand px = true ∨ px ≤ 0) :
    c.inBand px = false ↔ px ≤ 0 := by
  refine ⟨fun hno => hpx.resolve_left (by simp [hno]), fun hle => ?_⟩
  by_contra hband
  have := (hc.pos px (by simpa using hband)).1
  omega

/-- A call on the reference engine and one on the flat book: equal answers, related states. -/
def Agrees {α : Type} (c : Config) (x : NaiveBook × α) (y : Flat × α) : Prop :=
  x.2 = y.2 ∧ Sim c x.1 y.1

theorem submitLimit_valid (h : Sim c b F) (hc : Band c) (hqty : qty ≠ 0) (hpx : 0 < px)
    (hsmall : (F.side s.opp).length < 2 ^ 32) (id : OrderId) (tif : Tif) (owner : Owner) :
    Agrees c (b.submitLimit id s px qty tif) (F.execute c s id px qty tif owner) := by
  have hbad : ¬ (qty = 0 ∨ px ≤ 0) := by
    rintro (h | h)
    · exact hqty h
    · omega
  obtain ⟨h1, h2, h3⟩ := h.matchOrders hc.stp id qty owner px (fun p => crosses s p px)
    (s := s) fun _ _ => rfl
  have hfillable : b.crossableQty s px < qty.toUInt64 ↔
      fillable s px qty c.stp owner (F.side s.opp) = false := h.crossable_lt_iff hc.stp hsmall
  have hstop : (walk c.stp s id px owner (F.side s.opp) qty).stopped = false := by
    rw [hc.stp]
    exact walk_none_stopped _ _
  unfold Agrees NaiveBook.submitLimit Flat.execute
  simp only [if_neg hbad, hfillable, h2, h3, hstop, sub_sub_self, pos_iff]
  by_cases hfok : tif = .fok ∧ fillable s px qty c.stp owner (F.side s.opp) = false
  · simp only [if_pos hfok]
    exact ⟨trivial, h⟩
  · simp only [if_neg hfok]
    by_cases hrest : (walk c.stp s id px owner (F.side s.opp) qty).remaining ≠ 0 ∧ tif = .gtc
    · simp only [if_pos hrest]
      exact ⟨rfl, h1.rest s ⟨id, px, _, owner⟩⟩
    · simp only [if_neg hrest]
      exact ⟨rfl, h1⟩

theorem submitMarket (h : Sim c b F) (hwf : F.WF c) (hc : Band c) (hid : id ≠ 0)
    (hnew : id ∉ F.ids) (s : Side) (qty : Qty) (owner : Owner) :
    Agrees c (b.submitMarket id s qty) (F.submitMarket c id s qty owner) := by
  have hbest : (b.side s.opp).firstKey? = (F.side s.opp).head?.map Resting.price := h.firstKey? s.opp
  have hbad : (id = 0 ∨ qty = 0 ∨ id ∈ F.ids) ↔ qty = 0 := by simp [hid, hnew]
  unfold Agrees NaiveBook.submitMarket Flat.submitMarket
  simp only [hbad, Flat.marketLimit, NaiveBook.best, h.protection, hbest]
  by_cases hqty : qty = 0
  · simp only [if_pos hqty]
    exact ⟨trivial, h⟩
  simp only [if_neg hqty]
  by_cases hprot : 0 < c.protection
  · simp only [if_pos hprot]
    cases hq : (F.side s.opp).head? with
    | none =>
        simp only [Option.map_none, Option.getD_none, if_true]
        exact ⟨trivial, h⟩
    | some r =>
        have hpos : r.price ≠ kNoPrice := by
          have := (hc.pos _ (hwf.band s.opp r (List.mem_of_mem_head? hq))).1
          unfold kNoPrice
          omega
        simp only [Option.map_some, Option.getD_some, if_neg hpos]
        have hlim := fun lim => h.matchOrders hc.stp id qty owner lim (fun p => crosses s p lim)
          (s := s) fun _ _ => rfl
        cases s with
        | bid =>
            obtain ⟨h1, h2, h3⟩ := hlim (wrapPrice (r.price + c.protection))
            exact ⟨by rw [h2, h3], h1⟩
        | ask =>
            obtain ⟨h1, h2, h3⟩ := hlim (wrapPrice (r.price - c.protection))
            exact ⟨by rw [h2, h3], h1⟩
  · simp only [if_neg hprot]
    obtain ⟨h1, h2, h3⟩ := h.matchOrders hc.stp id qty owner s.marketPrice (fun _ => true)
      (s := s)
      fun r hr => (crosses_marketPrice (hc.pos _ (hwf.band s.opp r hr))).symm
    exact ⟨by rw [h2, h3], h1⟩

/-! The order of an id, on both books. -/

section found

variable {r : Resting}

theorem nodup (h : Sim c b F) (hwf : F.WF c) (s : Side) :
    ((flatten (b.side s).entries).map Resting.id).Nodup := by
  rw [h.flat, List.map_map]
  exact Flat.side_nodup hwf.nodup s

theorem find_none (h : Sim c b F) (hno : ∀ r ∈ F.side s, r.id ≠ id) : (b.side s).find id = none := by
  rw [find_eq_none, h.flat]
  intro r hr
  obtain ⟨r', hr', rfl⟩ := List.mem_map.mp hr
  exact hno r' hr'

theorem find_some (h : Sim c b F) (hwf : F.WF c) (hr : r ∈ F.side s) :
    (b.side s).find r.id = some (r.price, ⟨r.id, r.qty⟩) := by
  cases hf : (b.side s).find r.id with
  | none =>
      rw [find_eq_none, h.flat] at hf
      exact absurd rfl (hf r.anon (List.mem_map_of_mem hr))
  | some f =>
      obtain ⟨px, o⟩ := f
      obtain ⟨hmem, hid, -⟩ := flatten_of_find hf (h.nodup hwf s)
      rw [h.flat] at hmem
      obtain ⟨r', hr', heq⟩ := List.mem_map.mp hmem
      have hr'id : r'.id = r.id := (congrArg Resting.id heq).trans hid
      obtain ⟨-, rfl⟩ := Flat.eq_of_id hwf.nodup hr' hr hr'id
      have hpx : r'.price = px := congrArg Resting.price heq
      have hq : r'.qty = o.qty := congrArg Resting.qty heq
      rw [← hpx, hq, ← hid]

theorem not_mem_opp (hwf : F.WF c) (hr : r ∈ F.side s) : ∀ r' ∈ F.side s.opp, r'.id ≠ r.id := by
  intro r' hr' he
  exact Side.opp_ne s (Flat.eq_of_id hwf.nodup hr' hr he).1

theorem erase (h : Sim c b F) (hwf : F.WF c) (hr : r ∈ F.side s) :
    Sim c (b.withSide s ((b.side s).eraseFrom r.id).1) (F.remove r.id) := by
  obtain ⟨-, -, -, herase, -⟩ := flatten_of_find (h.find_some hwf hr) (h.nodup hwf s)
  have heq : F.remove r.id = F.withSide s ((F.side s).filter fun r' => decide (r'.id ≠ r.id)) := by
    refine Flat.ext_side fun t => ?_
    rw [Flat.side_remove]
    rcases Side.eq_or_eq_opp s t with rfl | rfl
    · rw [Flat.side_withSide_self]
    · rw [Flat.side_opp_withSide, List.filter_eq_self.mpr]
      intro r' hr'
      exact decide_eq_true (not_mem_opp hwf hr r' hr')
  rw [heq]
  refine h.withSide ?_ (h.noEmpty s).eraseFrom
  rw [herase, h.flat, List.filter_map]
  rfl

theorem amend (h : Sim c b F) (hwf : F.WF c) (hr : r ∈ F.side s) (qty : Qty) :
    Sim c (b.withSide s ((b.side s).alter r.price fun lvl => setQty r.id qty (lvl.getD [])))
      (F.amend r.id qty) := by
  obtain ⟨-, -, -, -, hset⟩ := flatten_of_find (h.find_some hwf hr) (h.nodup hwf s)
  have heq : F.amend r.id qty = F.withSide s
      ((F.side s).map fun r' => if r'.id = r.id then { r' with qty := qty } else r') := by
    refine Flat.ext_side fun t => ?_
    rw [Flat.side_amend]
    rcases Side.eq_or_eq_opp s t with rfl | rfl
    · rw [Flat.side_withSide_self]
    · rw [Flat.side_opp_withSide]
      refine (List.map_congr_left fun r' hr' => ?_).trans (List.map_id _)
      exact if_neg (not_mem_opp hwf hr r' hr')
  rw [heq]
  refine h.withSide ?_ ((h.noEmpty s).setQty (h.find_some hwf hr) qty)
  rw [hset, h.flat, List.map_map, List.map_map]
  refine List.map_congr_left fun r' _ => ?_
  by_cases hid : r'.id = r.id <;> simp [Resting.anon, hid]

end found

theorem eraseFrom_none {t : Side} {m : NaiveSide t} (h : m.find id = none) :
    m.eraseFrom id = (m, false) := by
  rw [eraseFrom, h]

theorem find_none_of_not_mem (h : Sim c b F) (hid : id ∉ F.ids) (s : Side) :
    (b.side s).find id = none :=
  h.find_none fun _ hr he => hid (he ▸ Flat.mem_ids_of_mem hr)

theorem cancel (h : Sim c b F) (hwf : F.WF c) (id : OrderId) :
    Agrees c (b.cancel id) (F.cancel id) := by
  unfold Agrees NaiveBook.cancel Flat.cancel
  by_cases hid : id ∈ F.ids
  · obtain ⟨s, r, hr, rfl⟩ := Flat.mem_ids.mp hid
    obtain ⟨-, -, hok, -⟩ := flatten_of_find (h.find_some hwf hr) (h.nodup hwf s)
    have herase := h.erase hwf hr
    rw [if_pos hid]
    cases s with
    | bid =>
        simp only [show (b.bids.eraseFrom r.id).2 = true from hok, if_true]
        exact ⟨trivial, herase⟩
    | ask =>
        have hnone : b.bids.eraseFrom r.id = (b.bids, false) :=
          eraseFrom_none (h.find_none (s := .bid) (not_mem_opp hwf hr))
        simp only [hnone, Bool.false_eq_true, if_false]
        exact ⟨hok, herase⟩
  · have hbid : b.bids.eraseFrom id = (b.bids, false) :=
      eraseFrom_none (h.find_none_of_not_mem hid .bid)
    have hask : b.asks.eraseFrom id = (b.asks, false) :=
      eraseFrom_none (h.find_none_of_not_mem hid .ask)
    rw [if_neg hid]
    simp only [hbid, hask, Bool.false_eq_true, if_false]
    exact ⟨trivial, h⟩

/-- `modify` on the side of the order. -/
theorem modifyFound (h : Sim c b F) (hwf : F.WF c) (hc : Band c) {r : Resting}
    (hr : r ∈ F.side s) (hqty : qty ≠ 0) (hpx : c.inBand px = true) (hsmall : F.ids.length < 2 ^ 32) :
    Agrees c (b.modifyFound s r.price ⟨r.id, r.qty⟩ r.id px qty)
      (if px = r.price ∧ qty ≤ r.qty then
        (F.amend r.id qty, { ok := true, filled := 0, rested := true, found := true }, [])
      else
        let (F, r, tape) := (F.remove r.id).execute c s r.id px qty .gtc r.owner
        (F, { ok := true, filled := r.filled, rested := r.rested, found := true }, tape)) := by
  unfold Agrees NaiveBook.modifyFound
  by_cases hsame : px = r.price ∧ qty ≤ r.qty
  · simp only [if_pos hsame]
    exact ⟨trivial, h.amend hwf hr qty⟩
  · simp only [if_neg hsame]
    have hlen : ((F.remove r.id).side s.opp).length < 2 ^ 32 := by
      have hperm := (F.ids_perm s).length_eq
      have hle : ((F.remove r.id).side s.opp).length ≤ (F.side s.opp).length := by
        rw [Flat.side_remove]
        exact List.length_filter_le _ _
      simp only [List.length_append, List.length_map] at hperm
      omega
    obtain ⟨hans, hsim⟩ := (h.erase hwf hr).submitLimit_valid hc hqty (hc.pos px hpx).1 hlen r.id
      .gtc r.owner
    exact ⟨by simp only [hans], hsim⟩

theorem modify (h : Sim c b F) (hwf : F.WF c) (hc : Band c) (id : OrderId) (px : Int) (qty : Qty)
    (hpx : c.inBand px = true ∨ px ≤ 0) (hsmall : F.ids.length < 2 ^ 32) :
    Agrees c (b.modify id px qty) (F.modify c id px qty) := by
  unfold NaiveBook.modify Flat.modify
  cases hf : F.find? id with
  | none =>
      have hid := Flat.find?_eq_none.mp hf
      have hnone : ∀ s, b.modifyOn s id px qty = none := fun s => by
        rw [modifyOn, h.find_none_of_not_mem hid s, Option.map_none]
      rw [hnone, hnone]
      exact ⟨rfl, h⟩
  | some sr =>
      obtain ⟨s, r⟩ := sr
      obtain ⟨hr, rfl⟩ := Flat.find?_eq_some hf
      have hfound : ((b.modifyOn .bid r.id px qty).or (b.modifyOn .ask r.id px qty)) =
          some (if qty = 0 ∨ px ≤ 0 then
            (b, { ok := false, filled := 0, rested := false, found := true }, [])
          else b.modifyFound s r.price ⟨r.id, r.qty⟩ r.id px qty) := by
        have hthis := h.find_some hwf hr
        have hother := h.find_none (not_mem_opp hwf hr)
        cases s with
        | bid => simp only [modifyOn, hthis, Option.map_some, Option.some_or]
        | ask =>
            rw [modifyOn, show (b.side .bid).find r.id = none from hother, Option.map_none,
              Option.none_or, modifyOn, hthis, Option.map_some]
      have hbad : (qty = 0 ∨ px ≤ 0) ↔ (qty = 0 ∨ c.inBand px = false) :=
        or_congr Iff.rfl (band_iff hc hpx).symm
      simp only [hfound, Option.getD_some, hbad]
      by_cases hrej : qty = 0 ∨ c.inBand px = false
      · simp only [if_pos hrej]
        exact ⟨rfl, h⟩
      · simp only [if_neg hrej]
        simp only [not_or, Bool.not_eq_false] at hrej
        exact h.modifyFound hwf hc hr hrej.1 hrej.2 hsmall

/-- **The reference engine is the flat book**, on fresh ids and acceptable prices. -/
theorem call (h : Sim c b F) (hwf : F.WF c) (hc : Band c) {op : Op} (hid : op.NamesOrder)
    (hnew : ∀ id ∈ op.newId?, id ∉ F.ids)
    (hpx : ∀ px ∈ op.price?, c.inBand px = true ∨ px ≤ 0) (hsmall : F.ids.length < 2 ^ 32) :
    Agrees c (b.call op) (F.call c op) := by
  cases op with
  | submitLimit id s px qty tif owner =>
      have hlen : (F.side s.opp).length < 2 ^ 32 := by
        have hperm := (F.ids_perm s).length_eq
        simp only [List.length_append, List.length_map] at hperm
        omega
      suffices hs : Agrees c (b.submitLimit id s px qty tif)
          (F.submitLimit c id s px qty tif owner) from
        ⟨by simp only [NaiveBook.call, Flat.call, hs.1], hs.2⟩
      have hbad : (id = 0 ∨ qty = 0 ∨ c.inBand px = false ∨ id ∈ F.ids) ↔ (qty = 0 ∨ px ≤ 0) := by
        have h1 := band_iff hc (hpx px rfl)
        have h2 := hnew id rfl
        have h3 : id ≠ 0 := hid
        tauto
      by_cases hrej : qty = 0 ∨ px ≤ 0
      · rw [NaiveBook.submitLimit, Flat.submitLimit, if_pos hrej, if_pos (hbad.mpr hrej)]
        exact ⟨rfl, h⟩
      · rw [Flat.submitLimit, if_neg (fun hb => hrej (hbad.mp hb))]
        rw [not_or] at hrej
        exact h.submitLimit_valid hc hrej.1 (by omega) hlen id tif owner
  | submitMarket id s qty owner =>
      obtain ⟨h1, h2⟩ := h.submitMarket hwf hc hid (hnew id rfl) s qty owner
      exact ⟨by simp only [NaiveBook.call, Flat.call, h1], h2⟩
  | cancel id =>
      obtain ⟨h1, h2⟩ := h.cancel hwf id
      exact ⟨by simp only [NaiveBook.call, Flat.call, h1], h2⟩
  | modify id px qty =>
      obtain ⟨h1, h2⟩ := h.modify hwf hc id px qty (hpx px rfl) hsmall
      exact ⟨by simp only [NaiveBook.call, Flat.call, h1], h2⟩

/-! ### Observers -/

theorem level_flatten {t : Side} (m : NaiveSide t) (px : Int) :
    level Resting.price px (flatten m.entries) = ((m.find? px).getD []).map (toResting px) := by
  have hother : ∀ es : List (Int × List NaiveOrder), (∀ e ∈ es, e.1 ≠ px) →
      level Resting.price px (flatten es) = [] := fun es h =>
    level_eq_nil.mpr fun r hr => mem_flatten_price (P := (· ≠ px)) h hr
  cases hf : m.find? px with
  | none =>
      refine hother _ fun e he hk => ?_
      exact OrdMap.find?_eq_none.mp hf e.2 (hk ▸ he)
  | some v =>
      obtain ⟨es₁, es₂, hes⟩ := List.append_of_mem (OrdMap.find?_eq_some.mp hf)
      obtain ⟨h1, h2⟩ := OrdMap.key_lt_of_split hes
      have hv : ∀ r ∈ v.map (toResting px), r.price = px := by
        intro r hr
        obtain ⟨o, -, rfl⟩ := List.mem_map.mp hr
        rfl
      rw [hes, flatten_append, flatten_cons, level_append, level_append,
        hother es₁ fun e he hk => irrefl (r := better t) px (hk ▸ h1 e he),
        hother es₂ fun e he hk => irrefl (r := better t) px (hk ▸ h2 e he), level_eq_self hv]
      simp

theorem qtyAt (h : Sim c b F) (s : Side) (px : Int) :
    b.qtyAt s px = UInt64.ofNat (total (level Resting.price px (F.side s))) := by
  have hlevel : level Resting.price px ((F.side s).map Resting.anon) =
      (level Resting.price px (F.side s)).map Resting.anon :=
    level_map (f := Resting.anon) (fun _ => rfl) px (F.side s)
  rw [NaiveBook.qtyAt, foldl_qty _ px, ← level_flatten, h.flat, hlevel, total_anon, UInt64.zero_add]

theorem restingOrders (h : Sim c b F) : b.restingOrders = F.ids.length := by
  have hlen : ∀ es : List (Int × List NaiveOrder),
      (es.map fun e => e.2.length).sum = (flatten es).length := by
    intro es
    simp [flatten, List.length_flatMap]
  have hbid := congrArg List.length (h.flat .bid)
  have hask := congrArg List.length (h.flat .ask)
  have hperm := (F.ids_perm .bid).length_eq
  simp only [List.length_map, List.length_append, Side.opp] at hbid hask hperm
  rw [NaiveBook.restingOrders, hlen, hlen, hperm]
  exact congrArg₂ (· + ·) hbid hask

end Sim

end NaiveBook

end Lob
