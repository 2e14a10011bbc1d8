import LimitOrderBook.Priority
import LimitOrderBook.PropertyTest
import LimitOrderBook.Slices

/-! # The property test reads a tape

The model of the test shows the flat book (`Model.Shows`) and numbers its orders by arrival
(`Model.Numbers`).  The test reads the cancels of a tape before its trades, while the engine emits
them as it goes; since every order is met once, the events may be replayed in any order
(`replay_perm`), and no check on the way can fail (`readTape_passes`). -/

namespace Lob

open KeyedQueue

/-! ### Events in another order -/

/-- Events about two orders commute. -/
theorem Event.edit_comm {e e' : Event} (h : e.maker ≠ e'.maker) (r : Resting) :
    (e.edit r).bind e'.edit = (e'.edit r).bind e.edit := by
  have key : ∀ {e e' : Event}, e.maker ≠ e'.maker → r.id = e.maker →
      (e.edit r).bind e'.edit = (e'.edit r).bind e.edit := by
    intro e e' h hr
    have hr' : r.id ≠ e'.maker := fun he => h (hr.symm.trans he)
    rw [edit_of_ne hr', Option.bind_some]
    cases he : e.edit r with
    | none => rfl
    | some r₁ =>
        have hid : r₁.id = r.id := congrArg Prod.fst (key_of_edit he)
        exact edit_of_ne (hid ▸ hr')
  by_cases hr : r.id = e.maker
  · exact key h hr
  · by_cases hr' : r.id = e'.maker
    · exact (key h.symm hr').symm
    · rw [edit_of_ne hr, edit_of_ne hr', Option.bind_some, Option.bind_some, edit_of_ne hr,
        edit_of_ne hr']

/-- A tape that meets every order once may be replayed in any order. -/
theorem replay_perm {t t' : List Event} (hp : t.Perm t') (hnd : (t.map Event.maker).Nodup)
    (q : List Resting) : replay t q = replay t' q := by
  induction hp generalizing q with
  | nil => rfl
  | cons e _ ih => exact ih (List.nodup_cons.mp hnd).2 _
  | swap e e' t =>
      have hne : e'.maker ≠ e.maker := fun he =>
        (List.nodup_cons.mp hnd).1 (he ▸ List.mem_cons_self)
      rw [replay_cons, replay_cons, replay_cons, replay_cons, List.filterMap_filterMap,
        List.filterMap_filterMap]
      exact congrArg _ (List.filterMap_congr fun r _ => Event.edit_comm hne r)
  | trans hp₁ _ ih₁ ih₂ => exact (ih₁ hnd q).trans (ih₂ ((hp₁.map _).nodup_iff.mp hnd) q)

theorem Flat.replay_append (F : Flat) (t₁ t₂ : List Event) :
    F.replay (t₁ ++ t₂) = (F.replay t₁).replay t₂ := by
  refine ext_side fun s => ?_
  rw [side_replay, side_replay, side_replay, Lob.replay_append]

theorem Flat.replay_perm {t t' : List Event} (hp : t.Perm t') (hnd : (t.map Event.maker).Nodup)
    (F : Flat) : F.replay t = F.replay t' := by
  refine ext_side fun s => ?_
  rw [side_replay, side_replay, Lob.replay_perm hp hnd]

/-- A walk meets every order once. -/
theorem walk_makers {stp : Stp} {s : Side} {taker : OrderId} {limit : Int} {owner : Owner} :
    ∀ (q : List Resting) (n : Qty), (q.map Resting.id).Nodup →
    ((walk stp s taker limit owner q n).tape.map Event.maker).Nodup
  | [], _, _ => List.nodup_nil
  | r :: q, n, hnd => by
      have htail := (List.nodup_cons.mp hnd).2
      have hnew : ∀ m, r.id ∉ (walk stp s taker limit owner q m).tape.map Event.maker := by
        intro m hm
        obtain ⟨e, he, hid⟩ := List.mem_map.mp hm
        exact walk_maker_ne hnd m e he hid
      refine walk_cases r q n (fun w => (w.tape.map Event.maker).Nodup) ?_ ?_ ?_ ?_ ?_
      · intro _
        exact List.nodup_nil
      · intro _ _ _ _
        exact List.nodup_nil
      · intro _ _ _ _
        exact List.nodup_cons.mpr ⟨hnew n, walk_makers q n htail⟩
      · intro _ _ _ _
        exact List.nodup_singleton _
      · intro _ _ _ _
        exact List.nodup_cons.mpr ⟨hnew _, walk_makers q (n - r.qty) htail⟩

namespace Event

def isCancel : Event → Bool
  | trade .. => false
  | cancel .. => true

end Event

/-- The cancels of a tape. -/
def cancelsOf (tape : List Event) : List Event := tape.filter Event.isCancel

/-- The trades of a tape. -/
def tradesOf (tape : List Event) : List Event := tape.filter fun e => !e.isCancel

theorem cancels_trades_perm (tape : List Event) : (cancelsOf tape ++ tradesOf tape).Perm tape :=
  List.filter_append_perm _ _

theorem cancelsOf_append (t₁ t₂ : List Event) : cancelsOf (t₁ ++ t₂) = cancelsOf t₁ ++ cancelsOf t₂ :=
  List.filter_append _ _

theorem tradesOf_append (t₁ t₂ : List Event) : tradesOf (t₁ ++ t₂) = tradesOf t₁ ++ tradesOf t₂ :=
  List.filter_append _ _

/-- The events read before a trade, as the test reads them and as the engine emitted them. -/
theorem read_perm (t₁ t₂ : List Event) :
    (cancelsOf (t₁ ++ t₂) ++ tradesOf t₁).Perm (t₁ ++ cancelsOf t₂) := by
  rw [cancelsOf_append, List.append_assoc]
  refine (List.Perm.append_left _ List.perm_append_comm).trans ?_
  rw [← List.append_assoc]
  exact (cancels_trades_perm t₁).append_right _

/-- The order that an event finds is the one the walk started from. -/
theorem mem_of_event {t₁ t₂ : List Event} {e : Event} {q : List Resting} {r : Resting}
    (hnd : ((t₁ ++ e :: t₂).map Event.maker).Nodup) (hr : r ∈ replay t₁ q) (hid : e.maker = r.id) :
    r ∈ q := by
  have hnew : ∀ e' ∈ t₁, e'.maker ≠ r.id := by
    intro e' he' heq
    rw [List.map_append] at hnd
    exact (List.nodup_append.mp hnd).2.2 _ (List.mem_map_of_mem he') _
      (List.mem_map_of_mem List.mem_cons_self) (heq.trans hid.symm)
  clear hnd
  induction t₁ generalizing q with
  | nil => exact hr
  | cons e₁ t₁ ih =>
      have hq := ih hr fun e' he' => hnew e' (List.mem_cons_of_mem _ he')
      obtain ⟨r₀, hr₀, hedit⟩ := List.mem_filterMap.mp hq
      have hid₀ : r.id = r₀.id := congrArg Prod.fst (Event.key_of_edit hedit)
      rw [Event.edit_of_ne fun he => hnew e₁ List.mem_cons_self (hid₀.trans he).symm] at hedit
      cases hedit
      exact hr₀

/-! ### The model -/

namespace PropertyTest

/-- An entry of the model, as an order of the flat book. -/
def Kept.flat (id : OrderId) (o : Kept) : Side × Resting := (o.side, ⟨id, o.px, o.qty, o.owner⟩)

namespace Model

variable {m : Model} {F : Flat} {g : Stamps} {id k : OrderId} {o : Kept}

def flat? (m : Model) (id : OrderId) : Option (Side × Resting) :=
  (m.orders.lookup id).map (Kept.flat id)

/-- The model holds the orders of the book. -/
def Shows (m : Model) (F : Flat) : Prop := ∀ id, m.flat? id = F.find? id

/-- The stamps `g` are the arrival numbers of the model. -/
structure Numbers (m : Model) (g : Stamps) : Prop where
  clock : g.clock = m.arrivals.toNat + 1
  stamp : ∀ id o, m.orders.lookup id = some o → g.stamp id = o.seq.toNat
  pos : ∀ id o, m.orders.lookup id = some o → o.seq ≠ 0

theorem lookup_erase :
    (m.erase id).orders.lookup k = if k = id then none else m.orders.lookup k := by
  split_ifs with hk
  · rw [hk]
    exact AList.lookup_erase id m.orders
  · exact AList.lookup_erase_ne hk

theorem lookup_put :
    (m.put id o).orders.lookup k = if k = id then some o else m.orders.lookup k := by
  split_ifs with hk
  · rw [hk]
    exact AList.lookup_insert m.orders
  · exact AList.lookup_insert_ne hk

@[simp] theorem flat?_erase : (m.erase id).flat? k = if k = id then none else m.flat? k := by
  rw [flat?, lookup_erase]
  split_ifs <;> rfl

@[simp] theorem flat?_put :
    (m.put id o).flat? k = if k = id then some (o.flat id) else m.flat? k := by
  rw [flat?, lookup_put]
  split_ifs with hk
  · rw [hk]
    rfl
  · rfl

namespace Numbers

theorem erase (h : m.Numbers g) (id : OrderId) : (m.erase id).Numbers g where
  clock := h.clock
  stamp k o hk := by
    rw [lookup_erase] at hk
    split_ifs at hk
    exact h.stamp k o hk
  pos k o hk := by
    rw [lookup_erase] at hk
    split_ifs at hk
    exact h.pos k o hk

/-- An order under the number it had. -/
theorem put (h : m.Numbers g) (hseq : g.stamp id = o.seq.toNat) (hpos : o.seq ≠ 0) :
    (m.put id o).Numbers g where
  clock := h.clock
  stamp k o' hk := by
    rw [lookup_put] at hk
    split_ifs at hk with he
    · cases hk
      rw [he]
      exact hseq
    · exact h.stamp k o' hk
  pos k o' hk := by
    rw [lookup_put] at hk
    split_ifs at hk
    · cases hk
      exact hpos
    · exact h.pos k o' hk

/-- A new order under the next number. -/
theorem next (h : m.Numbers g) (hone : (m.arrivals + 1).toNat = m.arrivals.toNat + 1) {s : Side}
    {px : Int} {n : Qty} {owner : Owner} :
    ({ m with arrivals := m.arrivals + 1 }.put id ⟨s, px, n, owner, m.arrivals + 1⟩).Numbers
      { g.join id px with clock := g.clock + 1 } where
  clock := by
    show g.clock + 1 = (m.arrivals + 1).toNat + 1
    rw [h.clock, hone]
  stamp k o' hk := by
    rw [lookup_put] at hk
    show (if k = id then g.clock else g.stamp k) = _
    split_ifs at hk ⊢
    · cases hk
      rw [h.clock, hone]
    · exact h.stamp k o' hk
  pos k o' hk := by
    rw [lookup_put] at hk
    split_ifs at hk
    · cases hk
      intro (h0 : m.arrivals + 1 = 0)
      rw [h0] at hone
      cases hone
    · exact h.pos k o' hk

end Numbers

namespace Shows

variable {s : Side} {r : Resting}

theorem lookup (h : m.Shows F) (hnd : F.ids.Nodup) (hr : r ∈ F.side s) :
    ∃ seq, m.orders.lookup r.id = some ⟨s, r.price, r.qty, r.owner, seq⟩ := by
  have hfind : m.flat? r.id = some (s, r) := (h r.id).trans ((Flat.find?_iff hnd).mpr ⟨hr, rfl⟩)
  obtain ⟨o, ho, heq⟩ := Option.map_eq_some_iff.mp hfind
  cases r
  cases heq
  exact ⟨o.seq, ho⟩

theorem mem (h : m.Shows F) (ho : m.orders.lookup id = some o) :
    ⟨id, o.px, o.qty, o.owner⟩ ∈ F.side o.side := by
  have hfind : F.find? id = some (o.flat id) := by
    rw [← h id, flat?, ho]
    rfl
  exact (Flat.find?_eq_some hfind).1

theorem lookup_eq_none (h : m.Shows F) : m.orders.lookup id = none ↔ id ∉ F.ids := by
  rw [← Flat.find?_eq_none, ← h id, flat?, Option.map_eq_none_iff]

theorem remove (h : m.Shows F) (hnd : F.ids.Nodup) (id : OrderId) :
    (m.erase id).Shows (F.remove id) := by
  intro k
  rw [flat?_erase, Flat.find?_remove hnd, h k]

theorem rest (h : m.Shows F) (hnd : (F.rest s r).ids.Nodup) (seq : UInt64) :
    (m.put r.id ⟨s, r.price, r.qty, r.owner, seq⟩).Shows (F.rest s r) := by
  intro k
  rw [flat?_put, Flat.find?_rest hnd, h k]
  rfl

theorem cancel (h : m.Shows F) (hnd : F.ids.Nodup) (id : OrderId) (owner : Owner) :
    (m.erase id).Shows (F.replay [.cancel id owner]) := by
  intro k
  rw [flat?_erase, Flat.find?_replay hnd, ← h k]
  cases hk : m.flat? k with
  | none => exact ite_self _
  | some x =>
      obtain ⟨o, -, rfl⟩ := Option.map_eq_some_iff.mp hk
      show _ = ((Event.cancel id owner).edit ⟨k, o.px, o.qty, o.owner⟩).map _
      simp only [Event.edit]
      split_ifs <;> rfl

theorem trade (h : m.Shows F) (hnd : F.ids.Nodup) (ho : m.orders.lookup id = some o)
    (taker : OrderId) (px : Int) (n : Qty) :
    (if o.qty - n = 0 then m.erase id else m.put id { o with qty := o.qty - n }).Shows
      (F.replay [.trade taker id px n]) := by
  intro k
  rw [Flat.find?_replay hnd, ← h k]
  by_cases hk : k = id
  · subst hk
    have hflat : m.flat? k = some (o.flat k) := by rw [flat?, ho]; rfl
    rw [hflat]
    show _ = ((Event.trade taker k px n).edit ⟨k, o.px, o.qty, o.owner⟩).map _
    simp only [Event.edit, if_true]
    split_ifs
    · rw [flat?_erase, if_pos rfl]
      rfl
    · rw [flat?_put, if_pos rfl]
      rfl
  · have hsame : (if o.qty - n = 0 then m.erase id else m.put id { o with qty := o.qty - n }).flat? k =
        m.flat? k := by
      split_ifs
      · rw [flat?_erase, if_neg hk]
      · rw [flat?_put, if_neg hk]
    rw [hsame]
    cases hf : m.flat? k with
    | none => rfl
    | some x =>
        obtain ⟨o', -, rfl⟩ := Option.map_eq_some_iff.mp hf
        show _ = ((Event.trade taker id px n).edit ⟨k, o'.px, o'.qty, o'.owner⟩).map _
        rw [Event.edit, if_neg hk]
        rfl

end Shows

end Model

/-! ### Reading a tape -/

section reading

variable {p : Params} {t : Test} {k : Incoming} {τ : Taker} {g : Stamps} {t₁ t₂ : List Event}
  {e : Event}

/-- The incoming order of the test is the taker of the flat book. -/
structure Matches (k : Incoming) (τ : Taker) : Prop where
  id : k.id = τ.id
  side : k.side = τ.side
  owner : k.owner = τ.owner

/-- The order that an event of a walk is about, as the walk found it. -/
theorem meets_of_event {stp : Stp} (hnd : τ.book.ids.Nodup)
    (htape : (τ.walk stp).tape = t₁ ++ e :: t₂) :
    ∃ r q, replay t₁ (τ.book.side τ.side.opp) = r :: q ∧ r ∈ τ.book.side τ.side.opp ∧
      Meets stp τ.id τ.owner r e := by
  have hside := Flat.side_nodup hnd τ.side.opp
  obtain ⟨r, q, hq, -, hmeets⟩ := walk_event _ _ hside htape
  have hmakers : ((t₁ ++ e :: t₂).map Event.maker).Nodup := htape ▸ walk_makers _ _ hside
  refine ⟨r, q, hq, mem_of_event hmakers ?_ hmeets.maker, hmeets⟩
  rw [hq]
  exact List.mem_cons_self

/-- Events read before the one about an order leave it alone. -/
theorem makers_ne {stp : Stp} (hnd : τ.book.ids.Nodup)
    (htape : (τ.walk stp).tape = t₁ ++ e :: t₂) : ∀ e' ∈ t₁ ++ t₂, e'.maker ≠ e.maker := by
  have hmakers : ((t₁ ++ e :: t₂).map Event.maker).Nodup :=
    htape ▸ walk_makers _ _ (Flat.side_nodup hnd τ.side.opp)
  have hmiddle := List.perm_middle.map Event.maker |>.nodup_iff.mp hmakers
  intro e' he' heq
  exact (List.nodup_cons.mp hmiddle).1 (heq ▸ List.mem_map_of_mem he')

theorem cancels_pass (hwf : τ.book.WF p.config) (hk : Matches k τ) (hshow : t.model.Shows τ.book)
    (hnum : t.model.Numbers g) :
    Passes ((τ.walk p.stp).tape.foldlM (onCancel p k) t) fun t' => t'.book = t.book ∧
      t'.model.Shows (τ.book.replay (cancelsOf (τ.walk p.stp).tape)) ∧ t'.model.Numbers g := by
  refine Passes.foldlM (I := fun seen (t' : Test) => t'.book = t.book ∧
    t'.model.Shows (τ.book.replay (cancelsOf seen)) ∧ t'.model.Numbers g) ⟨rfl, hshow, hnum⟩ ?_
  rintro seen e rest t' htape ⟨hbook, hshow', hnum'⟩
  have hmore : cancelsOf (seen ++ [e]) = cancelsOf seen ++ cancelsOf [e] := cancelsOf_append _ _
  cases e with
  | trade taker maker px n =>
      rw [hmore]
      exact Passes.pure ⟨hbook, by simpa [cancelsOf, Event.isCancel] using hshow', hnum'⟩
  | cancel id owner =>
      obtain ⟨r, q, hq, hr, hmeets⟩ := meets_of_event hwf.nodup htape
      have hnd := Flat.replay_nodup hwf.nodup (cancelsOf seen)
      have hr' : r ∈ (τ.book.replay (cancelsOf seen)).side τ.side.opp := by
        rw [Flat.side_replay]
        refine mem_replay_of_ne hr fun e' he' => ?_
        rw [← hmeets.maker]
        exact makers_ne hwf.nodup htape e' (List.mem_append_left _ (List.mem_of_mem_filter he'))
      cases hmeets with
      | kill hown hstp =>
          obtain ⟨seq, ho⟩ := hshow'.lookup hnd hr'
          simp only [onCancel, ho]
          refine Passes.ensure hstp (Passes.ensure ?_ (Passes.ensure ?_ (Passes.pure ?_)))
          · rw [hk.owner]
            exact hown.2.1
          · rw [hk.owner]
            exact hown.2.2
          · refine ⟨hbook, ?_, hnum'.erase _⟩
            rw [hmore, Flat.replay_append]
            exact hshow'.cancel hnd r.id r.owner

/-- A trade is with the order of its price that arrived first, among those the model still holds. -/
theorem seq_le_of_trade (hst : Stamped g τ.book) {m : Model} (hnum : m.Numbers g)
    (hshow : m.Shows (τ.book.replay (t₁ ++ t₂))) {r : Resting} {q : List Resting} {s : Side}
    (hq : replay t₁ (τ.book.side s) = r :: q) {o : Kept} (ho : m.orders.lookup r.id = some o)
    {id : OrderId} {o' : Kept} (ho' : m.orders.lookup id = some o') (hside : o'.side = s)
    (hpx : o'.px = r.price) : o.seq ≤ o'.seq := by
  have hfifo := (hst.of_keys (G := τ.book.replay t₁) fun s => by
    rw [Flat.side_replay]
    exact keys_replay t₁ _).fifo s
  rw [Flat.side_replay, hq] at hfifo
  have hmem := hshow.mem ho'
  rw [hside, Flat.side_replay, replay_append, hq] at hmem
  obtain ⟨r₀, hr₀, hid, hprice, -⟩ := mem_of_keys (keys_replay t₂ (r :: q)) hmem
  have hle : g.stamp r.id ≤ g.stamp r₀.id := by
    rcases List.mem_cons.mp hr₀ with rfl | hr₀
    · exact Nat.le_refl _
    · exact Nat.le_of_lt ((List.pairwise_cons.mp hfifo).1 r₀ hr₀ (hpx.symm.trans hprice.symm))
  rw [hid, hnum.stamp _ _ ho, hnum.stamp _ _ ho'] at hle
  exact hle

/-- What the model shows before a trade is read: the walk up to it, and the cancels still to come. -/
theorem replay_read {stp : Stp} (hnd : τ.book.ids.Nodup) (htape : (τ.walk stp).tape = t₁ ++ e :: t₂) :
    τ.book.replay (cancelsOf (τ.walk stp).tape ++ tradesOf t₁) =
      τ.book.replay (t₁ ++ cancelsOf (e :: t₂)) := by
  have hmakers : ((τ.walk stp).tape.map Event.maker).Nodup :=
    walk_makers _ _ (Flat.side_nodup hnd τ.side.opp)
  rw [htape] at hmakers ⊢
  refine Flat.replay_perm (read_perm t₁ (e :: t₂)) ?_ _
  refine ((read_perm t₁ (e :: t₂)).map Event.maker).nodup_iff.mpr ?_
  exact hmakers.sublist ((List.Sublist.append_left List.filter_sublist t₁).map Event.maker)

/-- Reading a trade, no check fails. -/
theorem trade_passes (hwf : τ.book.WF p.config) (hk : Matches k τ) (hst : Stamped g τ.book)
    {taker maker : OrderId} {px : Int} {n : Qty}
    (htape : (τ.walk p.stp).tape = t₁ ++ .trade taker maker px n :: t₂) {x : Test × UInt64}
    (hshow : x.1.model.Shows (τ.book.replay (cancelsOf (τ.walk p.stp).tape ++ tradesOf t₁)))
    (hnum : x.1.model.Numbers g) :
    Passes (onTrade p k x (.trade taker maker px n)) fun x' => x'.1.book = x.1.book ∧
      x'.1.model.Shows ((τ.book.replay (cancelsOf (τ.walk p.stp).tape ++ tradesOf t₁)).replay
        [.trade taker maker px n]) ∧ x'.1.model.Numbers g ∧ x'.2 = x.2 + n.toUInt64 := by
  obtain ⟨r, q, hq, hr, hmeets⟩ := meets_of_event hwf.nodup htape
  have hnd := Flat.replay_nodup hwf.nodup (cancelsOf (τ.walk p.stp).tape ++ tradesOf t₁)
  have hfirst := replay_read hwf.nodup htape ▸ hshow
  have hr' : r ∈ (τ.book.replay (cancelsOf (τ.walk p.stp).tape ++ tradesOf t₁)).side
      τ.side.opp := by
    rw [replay_read hwf.nodup htape, Flat.side_replay]
    refine mem_replay_of_ne hr fun e' he' => ?_
    rw [← hmeets.maker]
    refine makers_ne hwf.nodup htape e' ?_
    rcases List.mem_append.mp he' with he' | he'
    · exact List.mem_append_left _ he'
    · exact List.mem_append_right _ (List.mem_of_mem_filter he')
  cases hmeets with
  | trade hown hle _ =>
      obtain ⟨seq, ho⟩ := hshow.lookup hnd hr'
      have hseq : g.stamp r.id = seq.toNat := hnum.stamp _ _ ho
      have hpos : seq ≠ 0 := hnum.pos _ _ ho
      simp only [onTrade, ho]
      refine Passes.ensure hk.id.symm (Passes.ensure ?_ (Passes.ensure trivial (Passes.ensure hle ?_)))
      · rw [hk.side]
        exact Side.opp_ne _
      refine Passes.bind (Passes.forM _ fun e he => Passes.ensure_last ?_) fun _ _ =>
        Passes.ensure ?_ (Passes.pure ⟨rfl, ?_, ?_, rfl⟩)
      · rintro ⟨hside, hpx⟩
        have ho' : x.1.model.orders.lookup e.1 = some e.2 := AList.mem_lookup_iff.mpr he
        exact seq_le_of_trade hst hnum hfirst hq ho ho' hside hpx
      · rintro ⟨hstp, howner⟩ heq
        rw [hk.owner] at howner heq
        exact hown ⟨hstp, howner, heq⟩
      · exact hshow.trade hnd ho τ.id r.price n
      · show Model.Numbers (if _ then _ else _) g
        split_ifs
        · exact hnum.erase _
        · exact hnum.put hseq hpos

theorem trades_pass (hwf : τ.book.WF p.config) (hk : Matches k τ) (hst : Stamped g τ.book)
    (hshow : t.model.Shows (τ.book.replay (cancelsOf (τ.walk p.stp).tape)))
    (hnum : t.model.Numbers g) :
    Passes ((τ.walk p.stp).tape.foldlM (onTrade p k) (t, 0)) fun x => x.1.book = t.book ∧
      x.1.model.Shows (τ.swept p.stp) ∧ x.1.model.Numbers g ∧
      x.2 = UInt64.ofNat (traded (τ.walk p.stp).tape) := by
  set tape := (τ.walk p.stp).tape with htape₀
  have hend : τ.book.replay (cancelsOf tape ++ tradesOf tape) = τ.swept p.stp := by
    rw [Taker.swept_eq hwf.nodup]
    refine Flat.replay_perm (cancels_trades_perm tape) ?_ _
    refine ((cancels_trades_perm tape).map Event.maker).nodup_iff.mpr ?_
    exact walk_makers _ _ (Flat.side_nodup hwf.nodup τ.side.opp)
  rw [← hend]
  refine Passes.foldlM (I := fun seen (x : Test × UInt64) => x.1.book = t.book ∧
    x.1.model.Shows (τ.book.replay (cancelsOf tape ++ tradesOf seen)) ∧ x.1.model.Numbers g ∧
    x.2 = UInt64.ofNat (traded seen)) ⟨rfl, ?_, hnum, rfl⟩ ?_
  · rw [show tradesOf [] = [] from rfl, List.append_nil]
    exact hshow
  rintro seen e rest x htape ⟨hbook, hshow', hnum', hsum⟩
  have hmore : τ.book.replay (cancelsOf tape ++ tradesOf (seen ++ [e])) =
      (τ.book.replay (cancelsOf tape ++ tradesOf seen)).replay (tradesOf [e]) := by
    rw [tradesOf_append, ← List.append_assoc, Flat.replay_append]
  have htotal : traded (seen ++ [e]) = traded seen + e.traded := by simp [traded]
  rw [hmore, htotal]
  cases e with
  | cancel id owner => exact Passes.pure ⟨hbook, hshow', hnum', hsum⟩
  | trade taker maker px n =>
      refine (trade_passes hwf hk hst htape hshow' hnum').mono ?_
      rintro x' ⟨hbook', hshow'', hnum'', hsum'⟩
      refine ⟨hbook'.trans hbook, hshow'', hnum'', ?_⟩
      rw [hsum', hsum, UInt64.ofNat_add, Event.traded, UInt64.ofNat_uInt32ToNat]

/-- **Reading the tape of a walk, no check fails**, and the model shows the book it left. -/
theorem readTape_passes (hwf : τ.book.WF p.config) (hk : Matches k τ) (hst : Stamped g τ.book)
    (hshow : t.model.Shows τ.book) (hnum : t.model.Numbers g) :
    Passes (readTape p k t (τ.walk p.stp).tape) fun x => x.1.book = t.book ∧
      x.1.model.Shows (τ.swept p.stp) ∧ x.1.model.Numbers g ∧
      x.2 = UInt64.ofNat (traded (τ.walk p.stp).tape) := by
  refine (cancels_pass hwf hk hshow hnum).bind ?_
  rintro t' ⟨hbook, hshow', hnum'⟩
  rw [← hbook]
  exact trades_pass hwf hk hst hshow' hnum'

end reading

end PropertyTest

end Lob
