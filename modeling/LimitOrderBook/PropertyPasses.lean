import LimitOrderBook.Differential
import LimitOrderBook.PropertySteps

/-! # The property test cannot fail

In a test whose model agrees with its engine the audit passes (`audit_passes`), and the steps keep
it so (`step_passes`).  So does every run of the test, on every stream of random words and for every
length below `2 ^ 64` (`runChecked_passes`). -/

namespace Lob

open KeyedQueue

namespace PropertyTest

/-! ### The audit -/

abbrev Entry := Sigma fun _ : OrderId => Kept

/-- The order of an entry, if it is one of side `s`. -/
def Kept.on? (s : Side) (e : Entry) : Option Resting :=
  if e.2.side = s then some ⟨e.1, e.2.px, e.2.qty, e.2.owner⟩ else none

theorem Kept.on?_of_side {s : Side} {e : Entry} (h : e.2.side = s) :
    Kept.on? s e = some ⟨e.1, e.2.px, e.2.qty, e.2.owner⟩ := if_pos h

theorem Kept.on?_of_ne {s : Side} {e : Entry} (h : e.2.side ≠ s) : Kept.on? s e = none := if_neg h

namespace Model

variable {m : Model} {F : Flat} {s : Side} {r : Resting}

/-- The orders of a side, in no particular order. -/
def side (m : Model) (s : Side) : List Resting := m.orders.entries.filterMap (Kept.on? s)

theorem keys_perm (h : m.Shows F) (hnd : F.ids.Nodup) : m.orders.keys.Perm F.ids := by
  refine (List.perm_ext_iff_of_nodup m.orders.keys_nodup hnd).mpr fun id => ?_
  rw [← AList.mem_keys, ← AList.lookup_isSome, Option.isSome_iff_ne_none, Ne, h.lookup_eq_none,
    not_not]

theorem mem_side : r ∈ m.side s ↔ ∃ o, m.orders.lookup r.id = some o ∧ o.flat r.id = (s, r) := by
  rw [side, List.mem_filterMap]
  constructor
  · rintro ⟨⟨id, o⟩, he, heq⟩
    unfold Kept.on? at heq
    split_ifs at heq with hs
    cases heq
    exact ⟨o, AList.mem_lookup_iff.mpr he, by rw [← hs]; rfl⟩
  · rintro ⟨o, ho, heq⟩
    obtain ⟨hs, hr⟩ := Prod.mk.inj heq
    exact ⟨⟨r.id, o⟩, AList.mem_lookup_iff.mp ho, by rw [Kept.on?, if_pos hs, hr]⟩

theorem side_perm (h : m.Shows F) (hnd : F.ids.Nodup) (s : Side) : (m.side s).Perm (F.side s) := by
  have hids : ((m.side s).map Resting.id).Nodup := by
    refine m.orders.keys_nodup.sublist ?_
    unfold side AList.keys
    induction m.orders.entries with
    | nil => exact List.Sublist.refl _
    | cons e l ih =>
        rw [List.keys_cons]
        by_cases hs : e.2.side = s
        · rw [List.filterMap_cons_some (Kept.on?_of_side hs)]
          exact ih.cons_cons e.1
        · rw [List.filterMap_cons_none (Kept.on?_of_ne hs)]
          exact ih.cons e.1
  refine (List.perm_ext_iff_of_nodup (List.Nodup.of_map _ hids)
    (List.Nodup.of_map _ (Flat.side_nodup hnd s))).mpr fun r => ?_
  rw [mem_side]
  constructor
  · rintro ⟨o, ho, heq⟩
    have hr := h.mem ho
    obtain ⟨rfl, hr'⟩ := Prod.mk.inj heq
    exact hr' ▸ hr
  · intro hr
    obtain ⟨seq, ho⟩ := h.lookup hnd hr
    exact ⟨_, ho, rfl⟩

end Model

section auditing

variable {p : Params} {t : Test} {F : Flat} {n : ℕ}

/-- The table of sizes holds the sum of the orders at each price. -/
theorem depth_eq (m : Model) (s : Side) (px : Int) :
    depth m s px = UInt64.ofNat (total (level Resting.price px (m.side s))) := by
  have hsum : ∀ (l : List Entry) (d : Side → Int → UInt64),
      l.foldl (fun d e s px =>
        if e.2.side = s ∧ e.2.px = px then d s px + e.2.qty.toUInt64 else d s px) d s px =
      d s px + UInt64.ofNat (total (level Resting.price px (l.filterMap (Kept.on? s)))) := by
    intro l
    induction l with
    | nil => exact fun d => (UInt64.add_zero _).symm
    | cons e l ih =>
        intro d
        rw [List.foldl_cons, ih]
        by_cases hs : e.2.side = s
        · rw [List.filterMap_cons_some (Kept.on?_of_side hs), level_cons]
          by_cases hpx : e.2.px = px
          · rw [if_pos ⟨hs, hpx⟩, if_pos hpx, total_cons, UInt64.ofNat_add,
              UInt64.ofNat_uInt32ToNat, UInt64.add_assoc]
          · rw [if_neg fun h => hpx h.2, if_neg hpx]
        · rw [List.filterMap_cons_none (Kept.on?_of_ne hs), if_neg fun h => hs h.1]
  rw [depth, hsum]
  exact UInt64.zero_add _

/-- What the test finds for the best price `b` of a side among the entries `l`. -/
structure Finds (s : Side) (l : List Entry) (b : Int) : Prop where
  none : (∀ e ∈ l, e.2.side ≠ s) → b = kNoPrice
  some : ∀ e ∈ l, e.2.side = s → ∃ e' ∈ l, e'.2.side = s ∧ e'.2.px = b ∧ ¬ better s e.2.px b

namespace Finds

variable {s : Side} {l : List Entry} {b : Int} {e : Entry}

/-- An order of the other side. -/
theorem skip (h : Finds s l b) (hs : e.2.side ≠ s) : Finds s (l ++ [e]) b where
  none hno := h.none fun e' he' => hno e' (List.mem_append_left _ he')
  some e₁ he₁ hs₁ := by
    rcases List.mem_append.mp he₁ with he₁ | he₁
    · obtain ⟨e', he', h'⟩ := h.some e₁ he₁ hs₁
      exact ⟨e', List.mem_append_left _ he', h'⟩
    · rw [List.mem_singleton.mp he₁] at hs₁
      exact absurd hs₁ hs

/-- An order of the side, which is the best one if it is better or the first. -/
theorem next (h : Finds s l b) (hs : e.2.side = s) {b' : Int}
    (hnew : b' = e.2.px ∧ (b = kNoPrice ∨ ¬ better s b e.2.px) ∨
      b' = b ∧ b ≠ kNoPrice ∧ ¬ better s e.2.px b) (hpos : ∀ e' ∈ l, e'.2.px ≠ kNoPrice) :
    Finds s (l ++ [e]) b' where
  none hno := absurd hs (hno e (List.mem_append_right _ (List.mem_singleton_self e)))
  some e₁ he₁ hs₁ := by
    have hlast : e ∈ l ++ [e] := List.mem_append_right _ (List.mem_singleton_self e)
    rcases hnew with ⟨rfl, hbest⟩ | ⟨rfl, hne, hworse⟩
    · refine ⟨e, hlast, hs, rfl, ?_⟩
      rcases List.mem_append.mp he₁ with he₁ | he₁
      · obtain ⟨e', he', -, heq, hle⟩ := h.some e₁ he₁ hs₁
        rcases hbest with h0 | hbest
        · exact absurd (heq.trans h0) (hpos e' he')
        · cases s <;> simp only [better] at * <;> omega
      · rw [List.mem_singleton.mp he₁]
        exact irrefl _
    · by_cases hany : ∃ e₂ ∈ l, e₂.2.side = s
      · obtain ⟨e₂, he₂, hs₂⟩ := hany
        rcases List.mem_append.mp he₁ with he₁ | he₁
        · obtain ⟨e', he', h'⟩ := h.some e₁ he₁ hs₁
          exact ⟨e', List.mem_append_left _ he', h'⟩
        · obtain ⟨e', he', hs', heq, -⟩ := h.some e₂ he₂ hs₂
          rw [List.mem_singleton.mp he₁]
          exact ⟨e', List.mem_append_left _ he', hs', heq, hworse⟩
      · refine absurd (h.none fun e₂ he₂ hs₂ => hany ⟨e₂, he₂, hs₂⟩) hne

end Finds

theorem bestPrices_spec (m : Model) (hpos : ∀ e ∈ m.orders.entries, 0 < e.2.px) :
    Finds .bid m.orders.entries (bestPrices m).1 ∧
      Finds .ask m.orders.entries (bestPrices m).2 := by
  unfold bestPrices
  generalize m.orders.entries = l at hpos
  induction l using List.reverseRecOn with
  | nil => exact ⟨⟨fun _ => rfl, by simp⟩, ⟨fun _ => rfl, by simp⟩⟩
  | append_singleton l e ih =>
      have hl : ∀ e' ∈ l, 0 < e'.2.px := fun e' he' => hpos e' (List.mem_append_left _ he')
      have he := hpos e (List.mem_append_right _ (List.mem_singleton_self e))
      have hne : ∀ e' ∈ l, e'.2.px ≠ kNoPrice := fun e' he' => Int.ne_of_gt (hl e' he')
      obtain ⟨hbid, hask⟩ := ih hl
      rw [List.foldl_append, List.foldl_cons, List.foldl_nil]
      generalize l.foldl _ _ = best at hbid hask ⊢
      unfold kNoPrice at *
      cases hs : e.2.side with
      | bid =>
          refine ⟨hbid.next hs ?_ hne, hask.skip (by rw [hs]; decide)⟩
          simp only [better, kNoPrice]
          omega
      | ask =>
          refine ⟨hbid.skip (by rw [hs]; decide), hask.next hs ?_ hne⟩
          simp only [better, kNoPrice]
          split_ifs with h0
          · exact Or.inl ⟨rfl, Or.inl h0⟩
          · omega

/-- The best price the test finds is the one at the front of the side. -/
theorem Finds.best_eq {m : Model} {c : Config} (hshow : m.Shows F) (hwf : F.WF c) {s : Side}
    {b : Int} (h : Finds s m.orders.entries b) :
    ((F.side s).head?.map Resting.price).getD kNoPrice = b := by
  have hmem : ∀ e ∈ m.orders.entries, ⟨e.1, e.2.px, e.2.qty, e.2.owner⟩ ∈ F.side e.2.side :=
    fun e he => hshow.mem (AList.mem_lookup_iff.mpr he)
  cases hq : F.side s with
  | nil =>
      refine (h.none fun e he hs => ?_).symm
      have hr := hmem e he
      rw [hs, hq] at hr
      cases hr
  | cons r q =>
      have hr : r ∈ F.side s := by
        rw [hq]
        exact List.mem_cons_self
      obtain ⟨seq, ho⟩ := hshow.lookup hwf.nodup hr
      obtain ⟨e, he, hs, rfl, hle⟩ := h.some _ (AList.mem_lookup_iff.mp ho) rfl
      have hle' : ¬ better s e.2.px r.price := by
        have hr' := hmem e he
        have hord := hwf.ordered s
        rw [hs, hq] at hr'
        rw [hq] at hord
        rcases List.mem_cons.mp hr' with heq | hr'
        · rw [← heq]
          exact irrefl _
        · exact hord.head_le hr'
      have hle₀ : ¬ better s r.price e.2.px := hle
      exact trichotomous_of (better s) r.price e.2.px |>.resolve_left hle₀ |>.resolve_right hle'

/-- **In a test that agrees with the book, the audit passes.** -/
theorem audit_passes (hp : p.Valid) (h : Agrees p t F n) : Passes (audit p t) fun _ => True := by
  have hwf := h.repr.wf
  have hpos : ∀ e ∈ t.model.orders.entries, 0 < e.2.px := by
    intro e he
    have hband := hwf.band _ _ (h.shows.mem (AList.mem_lookup_iff.mpr he))
    have hlo := hp.lo_pos
    have hin : (decide (p.bandLo ≤ e.2.px) && decide (e.2.px < p.bandHi)) = true := hband
    rw [Bool.and_eq_true, decide_eq_true_eq] at hin
    omega
  obtain ⟨hbid, hask⟩ := bestPrices_spec t.model hpos
  unfold audit
  refine Passes.ensure (OrderBook.checkInvariants_of_repr h.repr) (Passes.ensure ?_
    (Passes.ensure ?_ (Passes.ensure ?_ ((Passes.forM _ fun px _ => Passes.forM _ fun s _ =>
      Passes.ensure_last ?_).bind fun _ _ => Passes.ensure_last ?_))))
  · rw [h.repr.best]
    exact hbid.best_eq h.shows hwf
  · rw [h.repr.best]
    exact hask.best_eq h.shows hwf
  · rw [h.repr.best, h.repr.best]
    rintro ⟨hb, ha⟩
    have hcross := hwf.uncrossed
    rw [Flat.side, Flat.side] at *
    cases hbids : F.bids with
    | nil => simp [hbids] at hb
    | cons r q =>
        cases hasks : F.asks with
        | nil => simp [hasks] at ha
        | cons r' q' =>
            exact hcross r (by rw [hbids]; exact List.mem_cons_self) r'
              (by rw [hasks]; exact List.mem_cons_self)
  · rw [h.repr.qtyAt, depth_eq]
    exact congrArg UInt64.ofNat
      (((Model.side_perm h.shows hwf.nodup s).symm.filter _).map _).sum_nat
  · rw [h.repr.restingOrders, ← (Model.keys_perm h.shows hwf.nodup).length_eq, AList.keys, List.keys,
      List.length_map]

end auditing

/-! ### Whole runs -/

section runs

variable {p : Params} {t : Test} {F : Flat} {n : ℕ}

/-- **A step of the test passes**, and the test still agrees with the book. -/
theorem step_passes (h : Agrees p t F n) (hsmall : n + 1 < 2 ^ 64) (op : Op)
    (hnew : ∀ id ∈ op.newId?, id ≠ 0 ∧ id ∉ F.ids) :
    Passes (step p t op) fun t' => t'.book = (t.book.call op).1 ∧
      Agrees p t' (F.call p.config op).1 (n + 1) := by
  cases op with
  | submitLimit id s px qty tif owner =>
      exact stepLimit_passes h hsmall s px qty tif owner (hnew id rfl).1 (hnew id rfl).2
  | submitMarket id s qty owner =>
      exact stepMarket_passes h hsmall s qty owner (hnew id rfl).1 (hnew id rfl).2
  | cancel id => exact stepCancel_passes h id
  | modify id px qty => exact stepModify_passes h hsmall id px qty

theorem new_agrees (hp : p.Valid) : Agrees p { book := OrderBook.new p } {} 0 where
  repr := OrderBook.new_repr hp
  shows _ := rfl
  numbered := ⟨{ clock := 1 }, ⟨rfl, (fun _ _ h => by cases h), fun _ _ h => by cases h⟩,
    Stamps.empty_stamped _⟩
  arrivals := Nat.le_refl 0

/-- Every operation checked and audited, on any sequence whose new orders have ids of their own. -/
theorem runOps_passes (hp : p.Valid) {ops : List Op} (hlen : ops.length < 2 ^ 64)
    (hnew : ∀ pre op post, ops = pre ++ op :: post → ∀ id ∈ op.newId?, id ≠ 0 ∧
      id ∉ (Transition.finalState (Flat.call p.config) {} pre).ids) :
    Passes (runOps p ops) fun t => t.book = OrderBook.run p ops ∧
      Agrees p t (Transition.finalState (Flat.call p.config) {} ops) ops.length := by
  refine Passes.foldlM (I := fun seen (t : Test) => t.book = OrderBook.run p seen ∧
    Agrees p t (Transition.finalState (Flat.call p.config) {} seen) seen.length)
    ⟨rfl, new_agrees hp⟩ ?_
  rintro seen op rest t hops ⟨hbook, h⟩
  have hsmall : seen.length + 1 < 2 ^ 64 := by
    rw [hops, List.length_append, List.length_cons] at hlen
    omega
  refine (step_passes h hsmall op (hnew seen op rest hops)).bind ?_
  rintro t' ⟨hbook', h'⟩
  refine (audit_passes hp h').bind fun _ _ => Passes.pure ⟨?_, ?_⟩
  · rw [hbook', hbook, OrderBook.run, OrderBook.run, Transition.finalState_append]
    rfl
  · rw [Transition.finalState_append, List.length_append]
    exact h'

end runs

/-! ### The operations of the test -/

namespace OpGen

variable {σ α β : Type} (word : σ → UInt64 × σ)

/-- A draw does not number an order. -/
def Keeps (x : Gen σ α) : Prop := ∀ g, (x.run g).2.nextId = g.nextId

/-- An operation brings in an order under the next id, or none. -/
def Numbers (x : Gen σ Op) : Prop := ∀ g,
  (x.run g).1.newId? = none ∧ (x.run g).2.nextId = g.nextId ∨
    (x.run g).1.newId? = some g.nextId ∧ (x.run g).2.nextId = g.nextId + 1

variable {word}

theorem Keeps.bind {x : Gen σ α} {f : α → Gen σ β} (hx : Keeps x) (hf : ∀ a, Keeps (f a)) :
    Keeps (x >>= f) := fun g => (hf _ _).trans (hx g)

theorem Keeps.pure (a : α) : Keeps (Pure.pure a : Gen σ α) := fun _ => rfl

theorem Numbers.bind {x : Gen σ α} {f : α → Gen σ Op} (hx : Keeps x) (hf : ∀ a, Numbers (f a)) :
    Numbers (x >>= f) := by
  intro g
  have h := hf (x.run g).1 (x.run g).2
  rw [hx g] at h
  exact h

/-- A draw that ends in an operation without a new order. -/
theorem Numbers.of_keeps {x : Gen σ Op} (hx : Keeps x) (hnone : ∀ g, (x.run g).1.newId? = none) :
    Numbers x := fun g => Or.inl ⟨hnone g, hx g⟩

theorem Numbers.takeId {f : OrderId → Gen σ Op} (hf : ∀ id, Keeps (f id))
    (hid : ∀ id g, ((f id).run g).1.newId? = some id) : Numbers (takeId >>= f) :=
  fun g => Or.inr ⟨hid g.nextId _, hf g.nextId _⟩

theorem pick_keeps (n : UInt64) : Keeps (pick word n) := fun _ => rfl

theorem side_keeps : Keeps (side word) := (pick_keeps 2).bind fun _ => Keeps.pure _

theorem owner_keeps : Keeps (owner word) := (pick_keeps 4).bind fun _ => Keeps.pure _

theorem price_keeps : Keeps (price word) := by
  refine (pick_keeps 50).bind fun r => ?_
  split_ifs
  · exact Keeps.pure _
  · exact (pick_keeps _).bind fun _ => Keeps.pure _

theorem qty_keeps : Keeps (qty word) := by
  refine (pick_keeps 50).bind fun r => ?_
  split_ifs
  · exact Keeps.pure _
  · exact (pick_keeps _).bind fun _ => Keeps.pure _

theorem target_keeps : Keeps (target word) := fun _ => rfl

theorem limit_numbers : Numbers (limit word) := by
  refine Numbers.bind (pick_keeps 10) fun t => Numbers.takeId (fun id => ?_) fun _ _ => rfl
  exact side_keeps.bind fun _ => price_keeps.bind fun _ => qty_keeps.bind fun _ =>
    owner_keeps.bind fun _ => Keeps.pure _

theorem market_numbers : Numbers (market word) := by
  refine Numbers.takeId (fun id => ?_) fun _ _ => rfl
  exact side_keeps.bind fun _ => (pick_keeps 60).bind fun _ => owner_keeps.bind fun _ => Keeps.pure _

theorem modifyOp_numbers : Numbers (modifyOp word) :=
  .of_keeps
    (target_keeps.bind fun _ => price_keeps.bind fun _ => qty_keeps.bind fun _ => Keeps.pure _)
    fun _ => rfl

theorem next_numbers : Numbers (next word) := by
  refine Numbers.bind (pick_keeps 100) fun r => ?_
  split_ifs
  · exact limit_numbers
  · exact market_numbers
  · exact .of_keeps (target_keeps.bind fun _ => Keeps.pure _) fun _ => rfl
  · exact modifyOp_numbers

/-- The first `k` ids. -/
def firstIds (k : ℕ) : List OrderId := (List.range k).map fun i => UInt64.ofNat (i + 1)

theorem firstIds_succ (k : ℕ) : firstIds (k + 1) = firstIds k ++ [UInt64.ofNat (k + 1)] := by
  rw [firstIds, List.range_succ, List.map_append]
  rfl

theorem toNat_id {k : ℕ} (hk : k + 1 < 2 ^ 64) : (UInt64.ofNat (k + 1)).toNat = k + 1 :=
  UInt64.toNat_ofNat_of_lt' hk

/-- Up to the width of an id, the ids are not zero and not repeated. -/
theorem firstIds_spec {k : ℕ} (hk : k < 2 ^ 64) :
    (firstIds k).Nodup ∧ ∀ id ∈ firstIds k, id ≠ 0 := by
  constructor
  · refine List.Nodup.map_on (fun i hi j hj heq => ?_) List.nodup_range
    have hi' := toNat_id (k := i) (by have := List.mem_range.mp hi; omega)
    have hj' := toNat_id (k := j) (by have := List.mem_range.mp hj; omega)
    rw [heq, hj'] at hi'
    omega
  · intro id hid h0
    obtain ⟨i, hi, rfl⟩ := List.mem_map.mp hid
    have hi' := toNat_id (k := i) (by have := List.mem_range.mp hi; omega)
    rw [h0] at hi'
    cases hi'

end OpGen

theorem opsOf_ids {σ : Type} (word : σ → UInt64 × σ) (n : ℕ) (rng : σ) :
    ∃ k ≤ n, (opsOf word n { rng }).filterMap Op.newId? = OpGen.firstIds k := by
  have hlen : (opsOf word n { rng }).length = n := by
    rw [opsOf, Transition.length_outputs, List.length_range]
  have h := @Transition.inv_outputs _ _ _ (fun g (_ : ℕ) => ((OpGen.next word).run g).swap)
    (fun os g => ∃ k ≤ os.length, os.filterMap Op.newId? = OpGen.firstIds k ∧
      g.nextId = UInt64.ofNat (k + 1)) ?_ { rng } [] ⟨0, Nat.le_refl 0, rfl, rfl⟩ (List.range n)
  · obtain ⟨k, hk, hids, -⟩ := h
    refine ⟨k, ?_, hids⟩
    rw [List.nil_append] at hk
    exact hlen ▸ hk
  · rintro os g - ⟨k, hk, hids, hnext⟩
    rw [List.length_append, List.filterMap_append, hids, Prod.snd_swap, Prod.fst_swap]
    rcases @OpGen.next_numbers σ word g with ⟨hnone, hsame⟩ | ⟨hnew, hsucc⟩
    · refine ⟨k, Nat.le_succ_of_le hk, ?_, hsame.trans hnext⟩
      rw [List.filterMap_cons_none hnone]
      exact List.append_nil _
    · refine ⟨k + 1, Nat.succ_le_succ hk, ?_, ?_⟩
      · rw [List.filterMap_cons_some hnew, hnext, OpGen.firstIds_succ]
        rfl
      · rw [hsucc, hnext, ← UInt64.ofNat_one, ← UInt64.ofNat_add]

/-- **The property test cannot fail**: on the operations drawn from any stream of random words, of
any number below `2 ^ 64`, every check after every call and every audit passes, for every policy and
every other valid choice of parameters. -/
theorem runChecked_passes (p : Params) (hp : p.Valid) {σ : Type} (word : σ → UInt64 × σ) (rng : σ)
    (n : ℕ) (hn : n < 2 ^ 64) :
    ∃ t, runChecked p word n { rng } = .ok t ∧
      t.book = OrderBook.run p (opsOf word n { rng }) := by
  obtain ⟨k, hk, hids⟩ := opsOf_ids word n rng
  obtain ⟨hnd, hne⟩ := OpGen.firstIds_spec (Nat.lt_of_le_of_lt hk hn)
  have hlen : (opsOf word n { rng }).length < 2 ^ 64 := by
    rw [opsOf, Transition.length_outputs, List.length_range]
    exact hn
  have hpass := runOps_passes hp hlen fun pre op post hops id hid => by
    rw [← hids, hops, List.filterMap_append, List.filterMap_cons_some hid] at hnd hne
    refine ⟨hne id (List.mem_append_right _ List.mem_cons_self), fun hmem => ?_⟩
    exact (List.nodup_append.mp hnd).2.2 id (Flat.ids_run p.config pre hmem) id
      List.mem_cons_self rfl
  obtain ⟨t, hrun, hbook, -⟩ := hpass
  exact ⟨t, hrun, hbook⟩

/-- The first sequence of the test, under `CancelResting`. -/
theorem runChecked_passes_first :
    ∃ t, runChecked (params .cancelResting) Mt19937.next 4000 { rng := Mt19937.ofSeed 1 } = .ok t ∧
      t.book = OrderBook.run (params .cancelResting)
        (opsOf Mt19937.next 4000 { rng := Mt19937.ofSeed 1 }) :=
  runChecked_passes (params .cancelResting) ⟨by decide, by decide, by decide, by decide⟩
    Mt19937.next (Mt19937.ofSeed 1) 4000 (by decide)


end PropertyTest

end Lob
