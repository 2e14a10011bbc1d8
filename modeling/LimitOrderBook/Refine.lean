import LimitOrderBook.Repr

/-! # The engines refine the flat book

`Book.Repr c b F` says that the engine `b` holds the flat book `F`: its nodes, index and levels
do (`Core`), and its ladders show exactly the prices at which orders rest.

The inner loop of `match` walks the queue of one level (`fillLevel_spec`), the outer loop the
whole side (`matchLevels_spec`); the pre-check of a fill-or-kill order is `fillable`
(`fokFillable_eq`).  `Repr.call` then says that every public call answers as the flat book does
and keeps the relation. -/

namespace Lob

open KeyedQueue Chain

/-! ### Quantities -/

namespace Book

variable {A L I P : Type} [DecidableEq A] [Ladder L A] [Index I A] [Allocator P A (Order A)]
  [LawfulLadder L A] [LawfulIndex I A] [LawfulAllocator P A (Order A)]

/-! ### One level -/

/-- The loop on the level at `px` has the queue `q` before it; `rest` are the worse orders. -/
structure Filling (F : Flat) (lv : Side → Int → Level A) (band : Int → Bool) (ptr : OrderId → A)
    (s : Side) (px : Int) (rest : List Resting) (w : Fill A I P) (q : List Resting) : Prop where
  core : Core w.pool w.orders (setLv lv s px w.lvl) band (F.withSide s (q ++ rest)) ptr
  price : ∀ r ∈ q, r.price = px
  rest_price : ∀ r ∈ rest, r.price ≠ px
  lvl_price : w.lvl.price = px

namespace Filling

variable {F : Flat} {lv : Side → Int → Level A} {band : Int → Bool} {ptr : OrderId → A}
  {s : Side} {px : Int} {rest q : List Resting} {w : Fill A I P} {r : Resting}

omit [DecidableEq A] in
theorem level_eq (h : Filling F lv band ptr s px rest w q) :
    level Resting.price px ((F.withSide s (q ++ rest)).side s) = q := by
  rw [Flat.side_withSide_self, level_append, level_eq_self h.price, level_eq_nil.mpr h.rest_price,
    List.append_nil]

omit [DecidableEq A] in
/-- The node at the front of the queue. -/
theorem front (h : Filling F lv band ptr s px rest w (r :: q)) :
    NodeRepr (Allocator.deref w.pool (ptr r.id)) s r ∧
      (Allocator.deref w.pool (ptr r.id)).next = (ptrs ptr q).head? := by
  have hr : r ∈ (F.withSide s (r :: q ++ rest)).side s := by
    rw [Flat.side_withSide_self]
    exact List.mem_append_left _ List.mem_cons_self
  have hpx : r.price = px := h.price r List.mem_cons_self
  have hlevel := h.core.level s px (hpx ▸ h.core.in_band s r hr)
  rw [h.level_eq] at hlevel
  exact ⟨h.core.node hr, hlevel.next_head⟩

omit [DecidableEq A] in
theorem emit (h : Filling F lv band ptr s px rest w q) (e : Event) :
    Filling F lv band ptr s px rest (w.emit e) q := ⟨h.core, h.price, h.rest_price, h.lvl_price⟩

omit [DecidableEq A] in
theorem with_qty (h : Filling F lv band ptr s px rest w q) (n : Qty) :
    Filling F lv band ptr s px rest { w with qty := n } q :=
  ⟨h.core, h.price, h.rest_price, h.lvl_price⟩

theorem drop (h : Filling F lv band ptr s px rest w (r :: q)) :
    Filling F lv band ptr s px rest (w.drop (ptr r.id)) q := by
  have hpx : r.price = px := h.price r List.mem_cons_self
  have hside : (F.withSide s (r :: q ++ rest)).side s = r :: (q ++ rest) := Flat.side_withSide_self
  have hr : r ∈ (F.withSide s (r :: q ++ rest)).side s := by
    rw [hside]
    exact List.mem_cons_self
  have hcore := h.core.drop hr
  rw [hpx, setLv_self, setLv_setLv, Flat.remove_head h.core.nodup hside] at hcore
  have hid : (Allocator.deref w.pool (ptr r.id)).id = r.id := h.front.1.id
  have hwith : (F.withSide s (r :: q ++ rest)).withSide s (q ++ rest) = F.withSide s (q ++ rest) := by
    cases s <;> rfl
  rw [hwith] at hcore
  refine ⟨?_, fun r' hr' => h.price r' (List.mem_cons_of_mem _ hr'), h.rest_price, ?_⟩
  · simp only [Fill.drop, hid]
    exact hcore
  · simp only [Fill.drop, unlink_level]
    exact h.lvl_price

theorem reduce (h : Filling F lv band ptr s px rest w (r :: q)) {take : Qty}
    (htake : take ≤ r.qty) :
    Filling F lv band ptr s px rest (w.reduce (ptr r.id) take)
      ({ r with qty := r.qty - take } :: q) := by
  have hpx : r.price = px := h.price r List.mem_cons_self
  have hside : (F.withSide s (r :: q ++ rest)).side s = r :: (q ++ rest) := Flat.side_withSide_self
  have hr : r ∈ (F.withSide s (r :: q ++ rest)).side s := by
    rw [hside]
    exact List.mem_cons_self
  have hcore := h.core.reduce hr htake
  have hqty : (Allocator.deref w.pool (ptr r.id)).qty = r.qty := h.front.1.qty
  have hwith : ∀ l, (F.withSide s (r :: q ++ rest)).withSide s l = F.withSide s l := by
    intro l
    cases s <;> rfl
  rw [hpx, setLv_self, setLv_setLv, Flat.amend_head h.core.nodup hside, hwith] at hcore
  refine ⟨?_, ?_, h.rest_price, h.lvl_price⟩
  · simp only [Fill.reduce, hqty]
    exact hcore
  · intro r' hr'
    rcases List.mem_cons.mp hr' with rfl | hr'
    · exact hpx
    · exact h.price r' (List.mem_cons_of_mem _ hr')

end Filling

section fill

variable {stp : Stp} {s : Side} {taker : OrderId} {limit : Int} {owner : Owner} {F : Flat}
  {lv : Side → Int → Level A} {band : Int → Bool} {ptr : OrderId → A} {px : Int}
  {rest : List Resting}

/-- The test of the inner loop is the one of the walk. -/
theorem own_iff {r : Resting} :
    (decide (stp ≠ .none) = true ∧ owner ≠ 0 ∧ r.owner = owner) ↔ r.Own stp owner := by
  rw [decide_eq_true_eq]
  rfl

/-- **The inner loop of `match` walks the queue of its level.** -/
theorem fillLevel_spec (stp : Stp) (taker : OrderId) (owner : Owner)
    (hcross : crosses s px limit = true) : ∀ (q : List Resting)
    (w : Fill A I P) (n : ℕ), Filling F lv band ptr s.opp px rest w q → w.qty ≠ 0 →
    w.stopped = false → q.length < n →
    let w' := fillLevel stp (decide (stp ≠ .none)) taker owner n (ptrs ptr q).head? w
    let W := walk stp s taker limit owner q w.qty
    Filling F lv band ptr s.opp px rest w' W.queue ∧ w'.qty = W.remaining ∧
      w'.stopped = W.stopped ∧ w'.tape = w.tape ++ W.tape
  | [], w, n + 1, h, _, hs, _ => by
      refine ⟨h, rfl, hs, ?_⟩
      simp [fillLevel, ptrs, walk]
  | r :: q, w, n + 1, h, hn, hs, hlt => by
      have hlt' : q.length < n := by simpa using hlt
      obtain ⟨hnode, hnext⟩ := h.front
      have hpx : r.price = px := h.price r List.mem_cons_self
      have hgo : ¬ (w.qty = 0 ∨ crosses s r.price limit = false) := by
        rw [hpx, hcross]
        simpa using hn
      have hhead : (ptrs ptr (r :: q)).head? = some (ptr r.id) := rfl
      simp only [hhead, fillLevel, hnode.owner, own_iff, hnode.id, hnode.qty, hnext,
        h.lvl_price]
      split_ifs with ho hr hlt hzero
      · -- stopped at an own order
        rw [walk_block hgo ho hr]
        exact ⟨⟨h.core, h.price, h.rest_price, h.lvl_price⟩, rfl, rfl, by simp⟩
      · -- an own order is cancelled
        rw [walk_kill hgo ho hr]
        obtain ⟨h1, h2, h3, h4⟩ :=
          fillLevel_spec stp taker owner hcross q ((w.emit (.cancel r.id r.owner)).drop (ptr r.id)) n
            (h.emit _).drop hn hs hlt'
        exact ⟨h1, h2, h3, by rw [h4]; simp [Fill.drop, Fill.emit]⟩
      · -- the maker outlives the taker
        have hle : w.qty ≤ r.qty := Nat.le_of_lt hlt
        rw [walk_part hgo ho hlt]
        exact ⟨((h.reduce hle).emit _).with_qty 0, rfl, hs, by rw [hpx]; rfl⟩
      · -- the maker is filled, and so is the taker
        have hle : r.qty ≤ w.qty := Nat.le_of_not_lt hlt
        have hzero' : w.qty - r.qty = 0 := hzero
        rw [walk_full hgo ho hle, hzero', walk_zero]
        exact ⟨((h.with_qty _).emit _).drop, rfl, hs, by rw [hpx]; rfl⟩
      · -- the maker is filled
        have hle : r.qty ≤ w.qty := Nat.le_of_not_lt hlt
        rw [walk_full hgo ho hle]
        obtain ⟨h1, h2, h3, h4⟩ := fillLevel_spec stp taker owner hcross q
          (({ w with qty := w.qty - r.qty }.emit (.trade taker r.id px r.qty)).drop (ptr r.id)) n
          ((h.with_qty _).emit _).drop hzero hs hlt'
        exact ⟨h1, h2, h3, by rw [h4, hpx]; simp [Fill.drop, Fill.emit]⟩

end fill

/-! ### Whole engines -/

section ladders

variable {b : Book L I P} {s t : Side} {l : L}

omit [DecidableEq A] [Ladder L A] [Index I A] [Allocator P A (Order A)] [LawfulLadder L A]
  [LawfulIndex I A] [LawfulAllocator P A (Order A)] in
theorem ladder_withLadder : (b.withLadder s l).ladder t = if t = s then l else b.ladder t := by
  cases s <;> cases t <;> rfl

end ladders

/-- The levels of an engine. -/
def levels (b : Book L I P) (s : Side) (px : Int) : Level A := Ladder.level (b.ladder s) px

/-- The engine `b` holds the flat book `F`. -/
structure Repr (c : Config) (b : Book L I P) (F : Flat) : Prop where
  orderly : F.Orderly c
  core : ∃ ptr, Core b.pool b.orders b.levels c.inBand F ptr
  ladder_wf : ∀ s, LawfulLadder.WF s (b.ladder s)
  occ : ∀ s px, LawfulLadder.occ (b.ladder s) px ↔ level Resting.price px (F.side s) ≠ []
  inBand : ∀ s px, Ladder.inBand (b.ladder s) px = c.inBand px
  stp : b.stp = c.stp
  protection : b.protection = c.protection

namespace Repr

variable {c : Config} {b : Book L I P} {F F' : Flat} {s : Side} {px : Int}

omit [DecidableEq A] in
theorem wf [Reserves I] (h : Repr c b F) : F.WF c where
  toOrderly := h.orderly
  id_ne s r hr := by
    obtain ⟨ptr, hcore⟩ := h.core
    exact Reserves.key_ne (hcore.key _ (Flat.mem_ids_of_mem hr))

omit [DecidableEq A] in
/-- The same book under another policy and protection. -/
theorem with_policy (h : Repr c b F) (stp : Stp) (protection : Int) :
    Repr { c with stp := stp, protection := protection }
      { b with stp := stp, protection := protection } F where
  orderly := { h.orderly with }
  core := h.core
  ladder_wf := h.ladder_wf
  occ := h.occ
  inBand := h.inBand
  stp := rfl
  protection := rfl

omit [DecidableEq A] in
theorem occ_of_mem (h : Repr c b F) {r : Resting} (hr : r ∈ F.side s) :
    LawfulLadder.occ (b.ladder s) r.price := by
  rw [h.occ]
  exact List.ne_nil_of_mem (mem_level.mpr ⟨hr, rfl⟩)

omit [DecidableEq A] in
theorem exists_of_occ (h : Repr c b F) (ho : LawfulLadder.occ (b.ladder s) px) :
    ∃ r ∈ F.side s, r.price = px := by
  obtain ⟨r, hr⟩ := List.exists_mem_of_ne_nil _ ((h.occ s px).mp ho)
  exact ⟨r, mem_level.mp hr⟩

omit [DecidableEq A] in
/-- The best price of the ladder is the price at the front of the side. -/
theorem best?_eq (h : Repr c b F) (s : Side) :
    Ladder.best? s (b.ladder s) = (F.side s).head?.map Resting.price := by
  cases hb : Ladder.best? s (b.ladder s) with
  | none =>
      have hnone := LawfulLadder.best?_none (h.ladder_wf s) hb
      cases hq : F.side s with
      | nil => rfl
      | cons r q => exact absurd (h.occ_of_mem (by rw [hq]; exact List.mem_cons_self)) (hnone r.price)
  | some p =>
      obtain ⟨hp, hmax⟩ := LawfulLadder.best?_some (h.ladder_wf s) hb
      obtain ⟨r', hr', rfl⟩ := h.exists_of_occ hp
      have hord := h.orderly.ordered s
      cases hq : F.side s with
      | nil => rw [hq] at hr'; cases hr'
      | cons r q =>
          rw [hq] at hr' hord
          have h1 : ¬ better s r'.price r.price := by
            rcases List.mem_cons.mp hr' with rfl | hr'
            · exact irrefl _
            · exact hord.head_le hr'
          have h2 := hmax r.price (h.occ_of_mem (by rw [hq]; exact List.mem_cons_self))
          exact congrArg some (Std.Trichotomous.trichotomous (r := better s) _ _ h1 h2)

omit [DecidableEq A] in
theorem best?_nil (h : Repr c b F) (hside : F.side s = []) : Ladder.best? s (b.ladder s) = none := by
  rw [h.best?_eq, hside]
  rfl

omit [DecidableEq A] in
theorem best?_cons (h : Repr c b F) {r : Resting} {q : List Resting} (hside : F.side s = r :: q) :
    Ladder.best? s (b.ladder s) = some r.price := by
  rw [h.best?_eq, hside]
  rfl

omit [DecidableEq A] in
/-- One ladder is exchanged, with nodes and index. -/
theorem with_ladder (h : Repr c b F) {l : L} {p : P} {o : I} {lv : Side → Int → Level A}
    {ptr : OrderId → A} (hwf : F'.Orderly c) (hcore : Core p o lv c.inBand F' ptr)
    (hl : LawfulLadder.WF s l) (hocc : ∀ q, LawfulLadder.occ l q ↔
      level Resting.price q (F'.side s) ≠ [])
    (hband : ∀ q, Ladder.inBand l q = Ladder.inBand (b.ladder s) q)
    (hlevel : ∀ q, c.inBand q = true → Ladder.level l q = lv s q ∨
      (level Resting.price q (F'.side s) = [] ∧ (Ladder.level l q).Blank))
    (hopp : ∀ q, level Resting.price q (F'.side s.opp) = level Resting.price q (F.side s.opp))
    (hlv : ∀ q, lv s.opp q = b.levels s.opp q) :
    Repr c ({ b with pool := p, orders := o }.withLadder s l) F' := by
  have hself : ({ b with pool := p, orders := o }.withLadder s l).ladder s = l := by
    rw [ladder_withLadder, if_pos rfl]
  have hother : ({ b with pool := p, orders := o }.withLadder s l).ladder s.opp =
      b.ladder s.opp := by
    rw [ladder_withLadder, if_neg (Side.opp_ne s)]
    cases s <;> rfl
  refine { orderly := hwf, core := ⟨ptr, ?_⟩, ladder_wf := ?_, occ := ?_, inBand := ?_, stp := ?_,
           protection := ?_ }
  · have hc : Core p o ({ b with pool := p, orders := o }.withLadder s l).levels c.inBand F' ptr := by
      refine hcore.with_levels fun t q hq => ?_
      rcases Side.eq_or_eq_opp s t with rfl | rfl
      · simp only [levels, hself]
        exact hlevel q hq
      · simp only [levels, hother]
        exact Or.inl (hlv q).symm
    cases s <;> exact hc
  · intro t
    rcases Side.eq_or_eq_opp s t with rfl | rfl
    · rw [hself]; exact hl
    · rw [hother]; exact h.ladder_wf _
  · intro t q
    rcases Side.eq_or_eq_opp s t with rfl | rfl
    · rw [hself]; exact hocc q
    · rw [hother, hopp]; exact h.occ _ q
  · intro t q
    rcases Side.eq_or_eq_opp s t with rfl | rfl
    · rw [hself, hband]; exact h.inBand _ q
    · rw [hother]; exact h.inBand _ q
  · have := h.stp
    cases s <;> exact this
  · have := h.protection
    cases s <;> exact this

omit [DecidableEq A] in
/-- Storing a level back, and taking it off the ladder if it is empty. -/
theorem settle (h : Repr c b F) (ho : LawfulLadder.occ (b.ladder s) px) {w : Fill A I P}
    {ptr : OrderId → A} (hcore : Core w.pool w.orders (setLv b.levels s px w.lvl) c.inBand F' ptr)
    (hprice : w.lvl.price = px) (hwf : F'.Orderly c)
    (hframe : ∀ t q, ¬ (t = s ∧ q = px) →
      level Resting.price q (F'.side t) = level Resting.price q (F.side t)) :
    Repr c (b.settle s px w) F' := by
  have hl := h.ladder_wf s
  have hband : c.inBand px = true := by
    rw [← h.inBand s]
    exact LawfulLadder.inBand_of_occ hl ho
  have hlevel := hcore.level s px hband
  rw [setLv_self] at hlevel
  have hl1 : LawfulLadder.WF s (Ladder.setLevel (b.ladder s) px w.lvl) :=
    LawfulLadder.setLevel_wf hl ho hprice
  have ho1 : ∀ q, LawfulLadder.occ (Ladder.setLevel (b.ladder s) px w.lvl) q ↔
      LawfulLadder.occ (b.ladder s) q := LawfulLadder.setLevel_occ hl ho
  have hb1 : ∀ q, Ladder.inBand (Ladder.setLevel (b.ladder s) px w.lvl) q =
      Ladder.inBand (b.ladder s) q := LawfulLadder.setLevel_inBand hl ho
  have hv1 : ∀ q, c.inBand q = true → Ladder.level (Ladder.setLevel (b.ladder s) px w.lvl) q =
      setLv b.levels s px w.lvl s q := by
    intro q hq
    rw [LawfulLadder.level_setLevel hl ho q (by rw [h.inBand]; exact hq)]
    by_cases hqp : q = px
    · simp [setLv, hqp]
    · simp [setLv, hqp, levels]
  have hopp : ∀ q, level Resting.price q (F'.side s.opp) = level Resting.price q (F.side s.opp) :=
    fun q => hframe s.opp q fun hc => Side.opp_ne s hc.1
  have hlv : ∀ q, setLv b.levels s px w.lvl s.opp q = b.levels s.opp q :=
    fun q => if_neg fun hc => Side.opp_ne s hc.1
  have hocc : ∀ q, q ≠ px → (LawfulLadder.occ (b.ladder s) q ↔
      level Resting.price q (F'.side s) ≠ []) := by
    intro q hq
    rw [h.occ, hframe s q fun hc => hq hc.2]
  unfold Book.settle
  cases hh : w.lvl.head.isNone with
  | false =>
      have hne : level Resting.price px (F'.side s) ≠ [] := by
        intro hnil
        rw [hlevel.head_isNone.mpr hnil] at hh
        cases hh
      refine h.with_ladder hwf hcore hl1 (fun q => ?_) hb1 (fun q hq => Or.inl (hv1 q hq)) hopp hlv
      rw [if_neg (by decide), ho1]
      by_cases hq : q = px
      · subst hq
        exact iff_of_true ho hne
      · exact hocc q hq
  | true =>
      have hnil := hlevel.head_isNone.mp hh
      have hblank : (Ladder.level (Ladder.setLevel (b.ladder s) px w.lvl) px).Blank := by
        rw [hv1 px hband, setLv_self]
        rw [hnil] at hlevel
        exact hlevel.nil_blank
      have hpo := (ho1 px).mpr ho
      simp only [if_true, hprice]
      have hl2 := LawfulLadder.emptied_wf hl1 hpo hblank
      have ho2 := LawfulLadder.emptied_occ hl1 hpo
      have hb2 := LawfulLadder.emptied_inBand (p := px) hl1
      refine h.with_ladder hwf hcore hl2 (fun q => ?_) (fun q => (hb2 q).trans (hb1 q))
        (fun q hq => ?_) hopp hlv
      · rw [ho2, ho1]
        by_cases hq : q = px
        · subst hq
          simp [hnil]
        · rw [hocc q hq]
          simp [hq]
      · by_cases hqp : q = px
        · subst hqp
          refine Or.inr ⟨hnil, LawfulLadder.blank hl2 ?_ ?_⟩
          · rw [hb2, hb1, h.inBand, hq]
          · rw [ho2]
            simp
        · left
          rw [LawfulLadder.level_emptied hl1 q hqp, hv1 q hq]

end Repr

/-! ### The outer loop -/

section sweep

variable {c : Config} {s : Side} {taker : OrderId} {limit : Int} {owner : Owner} {b : Book L I P}
  {F : Flat} {r : Resting} {q rest : List Resting} {px : Int} {n : Qty}

omit [DecidableEq A] in
/-- Where an iteration of the outer loop starts: the level of the best price is before it. -/
theorem Repr.filling (h : Repr c b F) (hside : F.side s = q ++ rest) (hq : q ≠ [])
    (hpx : ∀ r ∈ q, r.price = px) (hrest : ∀ r ∈ rest, r.price ≠ px) (n : Qty) :
    LawfulLadder.occ (b.ladder s) px ∧ ∃ ptr,
      (Ladder.level (b.ladder s) px).head = (ptrs ptr q).head? ∧
      Filling F b.levels c.inBand ptr s px rest
        (⟨b.pool, b.orders, Ladder.level (b.ladder s) px, n, false, []⟩ : Fill A I P) q := by
  obtain ⟨r, hr⟩ := List.exists_mem_of_ne_nil _ hq
  have hmem : r ∈ F.side s := by rw [hside]; exact List.mem_append_left _ hr
  have hocc : LawfulLadder.occ (b.ladder s) px := hpx r hr ▸ h.occ_of_mem hmem
  have hband : c.inBand px = true := hpx r hr ▸ h.orderly.band s r hmem
  have hwith : F.withSide s (q ++ rest) = F := by
    rw [← hside]
    cases s <;> rfl
  obtain ⟨ptr, hcore⟩ := h.core
  have hset : setLv b.levels s px (Ladder.level (b.ladder s) px) = b.levels := by
    funext t p
    simp only [setLv]
    split_ifs with hc
    · rw [hc.1, hc.2]
      rfl
    · rfl
  have hfill : Filling F b.levels c.inBand ptr s px rest
      (⟨b.pool, b.orders, Ladder.level (b.ladder s) px, n, false, []⟩ : Fill A I P) q :=
    ⟨by rw [hset, hwith]; exact hcore, hpx, hrest,
      LawfulLadder.price_of_occ (h.ladder_wf s) hocc⟩
  refine ⟨hocc, ptr, ?_, hfill⟩
  have hlevel := hfill.core.level s px hband
  rw [hfill.level_eq, setLv_self] at hlevel
  exact hlevel.head

omit [DecidableEq A] in
/-- Where it ends: the level holds what the walk left of it. -/
theorem Repr.settle_walk (h : Repr c b F) (hside : F.side s.opp = q ++ rest)
    (hocc : LawfulLadder.occ (b.ladder s.opp) px) (hpx : ∀ r ∈ q, r.price = px) {w : Fill A I P}
    {ptr : OrderId → A}
    (hw : Filling F b.levels c.inBand ptr s.opp px rest w
      (walk c.stp s taker limit owner q n).queue) :
    Repr c (b.settle s.opp px w)
      (F.withSide s.opp ((walk c.stp s taker limit owner q n).queue ++ rest)) := by
  have hkeys : ((walk c.stp s taker limit owner q n).queue.map Resting.key) <:+
      (q.map Resting.key) := walk_keys q n
  refine h.settle hocc hw.core hw.lvl_price ?_ ?_
  · refine h.orderly.of_keys (fun t => ?_) (fun t r hr => ?_)
    · rw [Flat.side_withSide]
      split_ifs with ht
      · subst ht
        rw [hside, List.map_append, List.map_append]
        exact hkeys.sublist.append (List.Sublist.refl _)
      · exact List.Sublist.refl _
    · rw [Flat.side_withSide] at hr
      have hqty : ∀ r ∈ q ++ rest, r.qty ≠ 0 := hside ▸ h.orderly.qty_ne s.opp
      split_ifs at hr with ht
      · rcases List.mem_append.mp hr with hr | hr
        · exact walk_qty_ne q n (fun r hr => hqty r (List.mem_append_left _ hr)) r hr
        · exact hqty r (List.mem_append_right _ hr)
      · exact h.orderly.qty_ne t r hr
  · intro t p hc
    rw [Flat.side_withSide]
    split_ifs with ht
    · subst ht
      have hp : p ≠ px := fun e => hc ⟨rfl, e⟩
      have hq' : level Resting.price p q = [] :=
        level_eq_nil.mpr fun r hr he => hp (he.symm.trans (hpx r hr))
      have hw' : level Resting.price p (walk c.stp s taker limit owner q n).queue = [] :=
        level_eq_nil.mpr fun r hr he => hp (he.symm.trans (hw.price r hr))
      rw [hside, level_append, level_append, hq', hw']
    · rfl

omit [DecidableEq A] [LawfulLadder L A] [LawfulIndex I A] [LawfulAllocator P A (Order A)] in
theorem matchLevels_zero (stpOn : Bool) (n : ℕ) :
    matchLevels stpOn s taker limit owner n b 0 = ⟨b, 0, false, []⟩ := by
  cases n <;> simp [matchLevels]

omit [DecidableEq A] in
theorem Repr.length_lt (h : Repr c b F) (hside : F.side s = q ++ rest) :
    q.length < Index.size b.orders + 1 := by
  obtain ⟨ptr, hcore⟩ := h.core
  have hlen := (F.ids_perm s).length_eq
  rw [hside] at hlen
  simp only [List.length_append, List.length_map] at hlen
  rw [hcore.size]
  omega

/-- The sweep `m`, which counts its quantity as `qty`, did what the walk `W` does. -/
structure Sweeps (c : Config) (s : Side) (F : Flat) (m : Sweep (Book L I P)) (W : Walk)
    (qty : Qty) : Prop where
  book : Repr c m.book (F.withSide s W.queue)
  qty : m.qty = qty
  stopped : m.stopped = W.stopped
  tape : m.tape = W.tape

omit [DecidableEq A] in
/-- One iteration and the ones after it, for a loop that counts an open quantity `n` as
`f n`. -/
theorem Sweeps.level {f : Qty → Qty} {b' : Book L I P} {w : Fill A I P} {m : Sweep (Book L I P)}
    (hcross : crosses s px limit = true)
    (hprice : ∀ r ∈ (walk c.stp s taker limit owner q n).queue, r.price = px)
    (hb : Repr c b' (F.withSide s.opp ((walk c.stp s taker limit owner q n).queue ++ rest)))
    (hqty : w.qty = f (walk c.stp s taker limit owner q n).remaining)
    (hstop : w.stopped = (walk c.stp s taker limit owner q n).stopped)
    (htape : w.tape = (walk c.stp s taker limit owner q n).tape)
    (hnext : Repr c b' (F.withSide s.opp rest) → ∀ n' ≤ n, w.qty = f n' →
      Sweeps c s.opp (F.withSide s.opp rest) m (walk c.stp s taker limit owner rest n')
        (f (walk c.stp s taker limit owner rest n').remaining))
    (hhalt : w.qty = f 0 → m = ⟨b', f 0, false, []⟩) :
    Sweeps c s.opp F
      (if w.stopped then ⟨b', w.qty, true, w.tape⟩ else { m with tape := w.tape ++ m.tape })
      (walk c.stp s taker limit owner (q ++ rest) n)
      (f (walk c.stp s taker limit owner (q ++ rest) n).remaining) := by
  have hwith : ∀ l, (F.withSide s.opp rest).withSide s.opp l = F.withSide s.opp l := by
    intro l
    cases s <;> rfl
  rw [walk_append]
  cases hs : w.stopped with
  | true =>
      rw [hs] at hstop
      simp only [if_true, if_neg (walk_stopped_ne_nil hstop.symm)]
      exact ⟨hb, hqty, hstop, htape⟩
  | false =>
      by_cases hnil : (walk c.stp s taker limit owner q n).queue = []
      · rw [hnil, List.nil_append] at hb
        obtain ⟨h1, h2, h3, h4⟩ := hnext hb _ (walk_remaining_le q n) hqty
        rw [hwith] at h1
        simp only [if_pos hnil]
        exact ⟨h1, h2, h3, by rw [← h4, ← htape]; rfl⟩
      · -- the level is not used up, so nothing is left of the taker
        have hzero : (walk c.stp s taker limit owner q n).remaining = 0 := by
          rcases walk_level hcross hprice with h | h | h
          · exact absurd h hnil
          · rw [hs, h] at hstop
            cases hstop
          · exact h
        rw [hzero] at hqty
        rw [hs] at hstop
        simp only [if_neg hnil, hzero, hhalt hqty, List.append_nil]
        exact ⟨hb, rfl, hstop, htape⟩

/-- **The outer loop of `match` walks the whole side.** -/
theorem matchLevels_spec (taker : OrderId) (limit : Int) (owner : Owner) : ∀ (fuel : ℕ)
    (b : Book L I P) (F : Flat) (n : Qty), Repr c b F → (F.side s.opp).length < fuel →
    Sweeps c s.opp F (matchLevels (decide (c.stp ≠ .none)) s taker limit owner fuel b n)
      (walk c.stp s taker limit owner (F.side s.opp) n)
      (walk c.stp s taker limit owner (F.side s.opp) n).remaining
  | fuel + 1, b, F, n, h, hlt => by
      have hsame : F.withSide s.opp (F.side s.opp) = F := by cases s <;> rfl
      by_cases hn : n = 0
      · subst hn
        rw [matchLevels_zero, walk_zero]
        exact ⟨by rw [hsame]; exact h, rfl, rfl, rfl⟩
      cases hq : F.side s.opp with
      | nil =>
          simp only [matchLevels, if_neg hn, h.best?_nil hq]
          exact ⟨by rw [walk, ← hq, hsame]; exact h, rfl, rfl, rfl⟩
      | cons r q₀ =>
          have hbest := h.best?_cons hq
          cases hc : crosses s r.price limit with
          | false =>
              simp only [matchLevels, if_neg hn, hbest, hc]
              rw [walk_stop (Or.inr hc), ← hq]
              exact ⟨by rw [hsame]; exact h, rfl, rfl, rfl⟩
          | true =>
              simp only [matchLevels, if_neg hn, hbest, hc, if_true, h.stp]
              have hord := h.orderly.ordered s.opp
              rw [hq] at hord
              obtain ⟨q, rest, hsplit, hqne, hpx, hrest⟩ := hord.split_head
              have hside : F.side s.opp = q ++ rest := hq.trans hsplit
              obtain ⟨hocc, ptr, hhead, hfill⟩ := h.filling hside hqne hpx hrest n
              obtain ⟨hw, hqty, hstop, htape⟩ :=
                fillLevel_spec c.stp taker owner hc q _
                  (Index.size b.orders + 1) hfill hn rfl (h.length_lt hside)
              rw [← hhead] at hw hqty hstop htape
              have hb := h.settle_walk hside hocc hpx hw
              have hlen : rest.length < fuel := by
                have := List.length_pos_of_ne_nil hqne
                rw [hside, List.length_append] at hlt
                omega
              rw [← hq, hside]
              refine Sweeps.level (f := fun x => x) hc hw.price hb hqty hstop htape ?_ ?_
              · intro hb' n' _ hn'
                have hrec := matchLevels_spec taker limit owner fuel _ _ n' hb'
                  (by rw [Flat.side_withSide_self]; exact hlen)
                rw [Flat.side_withSide_self] at hrec
                rw [hn']
                exact hrec
              · intro hz
                rw [hz, matchLevels_zero]

end sweep

end Book

end Lob
