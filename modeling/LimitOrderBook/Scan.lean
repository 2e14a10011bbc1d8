import Mathlib.Order.Bounds.Basic
import LimitOrderBook.OrderBook
import LimitOrderBook.WordScan

/-! # `scan_worse` and `top_levels`, access by access

`scanWorse?` and `topLevels?` are the scan of a ladder and the snapshot loop over it, with every
access to the words and the levels one that fails outside its array, and every loop one that fails
when its fuel is out.  The caller's arrays are a function from their indices.

On a ladder whose bitmap has no bit outside the band, a scan finds the nearest occupied price behind
the one it starts from (`Frame.scans`).  If the best price is the first occupied one, the loop writes
the occupied levels in order (`Shape.walk?_eq`), which is the snapshot that the gateway reads
(`topLevels?_eq_topLevels`).  The ladders of a run are of that kind (`scan_snapshots`). -/

namespace Lob

open Bitmap

/-- The greatest price of a set for bids, the least for asks. -/
def Side.IsNearest : Side → Set Int → Int → Prop
  | .bid => IsGreatest
  | .ask => IsLeast

/-- An array whose first entries have been written. -/
def overwrite {α : Type} (out : ℕ → α) (es : List α) : ℕ → α := fun i => es[i]?.getD (out i)

theorem overwrite_nil {α : Type} (out : ℕ → α) : overwrite out [] = out := rfl

theorem update_overwrite {α : Type} (out : ℕ → α) (es : List α) (e : α) :
    Function.update (overwrite out es) es.length e = overwrite out (es ++ [e]) := by
  funext i
  unfold overwrite
  rcases Nat.lt_trichotomy i es.length with hlt | rfl | hgt
  · rw [Function.update_of_ne (Nat.ne_of_lt hlt), List.getElem?_append_left hlt]
  · simp
  · have hle : (es ++ [e]).length ≤ i := by
      rw [List.length_append]
      exact hgt
    rw [Function.update_of_ne (Nat.ne_of_gt hgt), List.getElem?_eq_none (Nat.le_of_lt hgt),
      List.getElem?_eq_none hle]

namespace FlatLadder

variable {A : Type}

section code

/-- `static_cast<std::size_t>(px - lo_)`; a difference below zero is no index. -/
def idx? (l : FlatLadder A) (px : Int) : Option ℕ := if l.lo ≤ px then some (l.idx px) else none

/-- `at(px)`, as a value. -/
def level? (l : FlatLadder A) (px : Int) : Option (Level A) := do
  let i ← l.idx? px
  l.levels[i]?

def scanWorse? (s : Side) (l : FlatLadder A) (fuel : ℕ) (px : Int) : Option Int := do
  let i ← l.idx? px
  let hit ← match s with
    | .bid => scanBelow? l.words fuel i
    | .ask => scanAbove? l.words fuel i
  some ((hit.map fun i => l.lo + (i : Int)).getD kNoPrice)

/-- The loop of `top_levels` at the price `px`; `scan` is the fuel of its scans. -/
def walk? (s : Side) (l : FlatLadder A) (scan : ℕ) (n : Int) :
    ℕ → Int → ℕ → (ℕ → Int × UInt64) → Option (ℕ × (ℕ → Int × UInt64))
  | 0, _, _, _ => none
  | fuel + 1, px, written, out =>
      if px ≠ kNoPrice ∧ (written : Int) < n then do
        let lvl ← l.level? px
        let next ← l.scanWorse? s scan px
        walk? s l scan n fuel next (written + 1)
          (Function.update out written (px, lvl.totalQty))
      else some (written, out)

end code

/-! ### What should be found -/

/-- The occupied prices that are worse than `px`. -/
def worse (s : Side) (l : FlatLadder A) (px : Int) : Set Int := {q | l.Occ q ∧ better s px q}

/-- A scan from any price of the band is defined, and finds the nearest occupied price behind it,
or `kNoPrice` if there is none; the other way round, while `kNoPrice` is not a price of the band. -/
def Scans (s : Side) (l : FlatLadder A) (fuel : ℕ) : Prop :=
  ∀ px, l.inBand px = true → ∃ r, l.scanWorse? s fuel px = some r ∧
    ((l.worse s px).Nonempty → s.IsNearest (l.worse s px) r) ∧
    (l.worse s px = ∅ → r = kNoPrice) ∧
    (l.inBand kNoPrice = false → r = kNoPrice → l.worse s px = ∅)

/-- The cached best price is the best of the occupied ones. -/
structure CachesBest (s : Side) (l : FlatLadder A) : Prop where
  none : l.best = kNoPrice → ∀ p, ¬ l.Occ p
  some : l.best ≠ kNoPrice → l.Occ l.best ∧ ∀ q, l.Occ q → ¬ better s q l.best

/-- The occupied prices, best first. -/
def occupied (s : Side) (l : FlatLadder A) : List Int :=
  (match s with
    | .bid => l.ticks.reverse
    | .ask => l.ticks).filter l.bitSet

variable {l : FlatLadder A} {s : Side}

theorem occupied_pairwise (s : Side) (l : FlatLadder A) : (l.occupied s).Pairwise (better s) := by
  apply List.Pairwise.filter
  cases s with
  | bid => exact List.pairwise_reverse.mpr ticks_pairwise
  | ask => exact ticks_pairwise

theorem mem_occupied {px : Int} : px ∈ l.occupied s ↔ l.Occ px := by
  refine List.mem_filter.trans (and_congr_left fun _ => ?_)
  cases s with
  | bid => exact List.mem_reverse.trans mem_ticks
  | ask => exact mem_ticks

/-- In a list in worsening order, the best entry is the first. -/
theorem head?_eq_of_best {pxs : List Int} {r : Int} (hsorted : pxs.Pairwise (better s))
    (hmem : r ∈ pxs) (hbest : ∀ q ∈ pxs, ¬ better s q r) : pxs.head? = some r := by
  cases pxs with
  | nil => cases hmem
  | cons q rest =>
      rcases List.mem_cons.mp hmem with rfl | hin
      · rfl
      · exact absurd ((List.pairwise_cons.mp hsorted).1 r hin) (hbest q List.mem_cons_self)

theorem CachesBest.best_eq (hbest : l.CachesBest s) : l.best = (l.occupied s).head?.getD kNoPrice := by
  by_cases h0 : l.best = kNoPrice
  · have hnil : l.occupied s = [] := by
      apply List.eq_nil_iff_forall_not_mem.mpr
      intro q hq
      exact hbest.none h0 q (mem_occupied.mp hq)
    rw [hnil]
    exact h0
  · obtain ⟨hocc, hmax⟩ := hbest.some h0
    have hhead : (l.occupied s).head? = Option.some l.best :=
      head?_eq_of_best (occupied_pairwise s l) (mem_occupied.mpr hocc)
        fun q hq => hmax q (mem_occupied.mp hq)
    rw [hhead]
    rfl

/-- The entry that `top_levels` writes for a level. -/
def entry (l : FlatLadder A) (px : Int) : Int × UInt64 := (px, (l.level px).totalQty)

/-! ### What is found -/

namespace Frame

variable {lo hi px : Int} (h : l.Frame lo hi)

include h

theorem scanWorse?_eq {fuel : ℕ} (hfuel : l.words.length ≤ fuel) (hpx : l.inBand px = true) :
    l.scanWorse? s fuel px = some (l.scanWorse s px) := by
  have hidx : l.idx? px = some (l.idx px) := if_pos (inBand_iff.mp hpx).1
  have hword := h.word_lt hpx
  unfold scanWorse? scanWorse
  rw [hidx]
  cases s with
  | bid =>
      simp only [Option.bind_eq_bind, Option.bind_some, scanBelow?_eq hfuel hword]
      cases scanBelow l.words (l.idx px) <;> rfl
  | ask =>
      simp only [Option.bind_eq_bind, Option.bind_some, scanAbove?_eq hfuel hword]
      cases scanAbove l.words (l.idx px) <;> rfl

theorem level?_eq (hpx : l.inBand px = true) : l.level? px = some (l.level px) := by
  have hidx : l.idx? px = some (l.idx px) := if_pos (inBand_iff.mp hpx).1
  have hlt := h.idx_lt hpx
  unfold level? level
  rw [hidx, List.getD_eq_getElem _ _ hlt, ← List.getElem?_eq_getElem hlt]
  rfl

/-- **A scan finds the nearest occupied price behind the one it starts from.** -/
theorem scans (hbits : ∀ i, bit l.words i = true → i < l.levels.length) {fuel : ℕ}
    (hfuel : l.words.length ≤ fuel) : l.Scans s fuel := by
  intro px hpx
  refine ⟨l.scanWorse s px, h.scanWorse?_eq hfuel hpx, ?_⟩
  rcases h.scan_cases hbits s hpx with ⟨h0, hnone⟩ | ⟨hocc, hworse, hnear⟩
  · have hempty : l.worse s px = ∅ :=
      Set.eq_empty_of_forall_notMem fun q hq => hnone q hq.1 hq.2
    refine ⟨fun hne => ?_, fun _ => h0, fun _ _ => hempty⟩
    rw [hempty] at hne
    exact absurd hne Set.not_nonempty_empty
  · have hmem : l.scanWorse s px ∈ l.worse s px := ⟨hocc, hworse⟩
    refine ⟨fun _ => ?_, fun hempty => ?_, fun hapart h0 => ?_⟩
    · cases s with
      | bid => exact ⟨hmem, fun q hq => Int.not_lt.mp (hnear q hq.1 hq.2)⟩
      | ask => exact ⟨hmem, fun q hq => Int.not_lt.mp (hnear q hq.1 hq.2)⟩
    · rw [hempty] at hmem
      cases hmem
    · have hin := hocc.1
      rw [h0, hapart] at hin
      cases hin

end Frame

/-- From the lowest bit of a word, over an empty word, to the highest bit of another. -/
example : ({ levels := List.replicate 192 {}, words := [1#64 <<< 63, 0, 1], lo := 1, hi := 193 } :
    FlatLadder Addr).scanWorse? .bid 3 129 = some 64 := by decide +kernel

namespace Shape

variable (h : l.Shape)

include h

theorem ne_of_mem_occupied {q : Int} (hq : q ∈ l.occupied s) : q ≠ kNoPrice :=
  h.ne_kNoPrice (mem_occupied.mp hq).1

/-- The scan from one occupied price leads to the next. -/
theorem scanWorse_eq {pre rest : List Int} {px : Int} (hocc : l.occupied s = pre ++ px :: rest) :
    l.scanWorse s px = rest.head?.getD kNoPrice := by
  have hsorted := occupied_pairwise s l
  rw [hocc] at hsorted
  obtain ⟨-, hbehind, hbefore⟩ := List.pairwise_append.mp hsorted
  obtain ⟨hnext, hrest⟩ := List.pairwise_cons.mp hbehind
  have hmem : ∀ q, q ∈ pre ++ px :: rest ↔ l.Occ q := fun q => hocc ▸ mem_occupied
  have hpx : l.inBand px = true := ((hmem px).mp (by simp)).1
  rcases h.frame.scan_cases h.bits s hpx with ⟨h0, hnone⟩ | ⟨hr, hworse, hnear⟩
  · rw [h0]
    cases rest with
    | nil => rfl
    | cons q rest => exact absurd (hnext q List.mem_cons_self) (hnone q ((hmem q).mp (by simp)))
  · have hin : l.scanWorse s px ∈ rest := by
      rcases List.mem_append.mp ((hmem _).mpr hr) with hin | hin
      · exact absurd hworse (asymm (hbefore _ hin px List.mem_cons_self))
      · rcases List.mem_cons.mp hin with he | hin
        · rw [he] at hworse
          exact absurd hworse (irrefl _)
        · exact hin
    have hhead : rest.head? = some (l.scanWorse s px) := by
      refine head?_eq_of_best hrest hin fun q hq => hnear q ?_ (hnext q hq)
      exact (hmem q).mp (List.mem_append_right _ (List.mem_cons_of_mem _ hq))
    rw [hhead]
    rfl

/-- **The loop of `top_levels`** writes the levels that are left, as far as it may. -/
theorem walk?_eq {scan : ℕ} (hscan : l.words.length ≤ scan) (n : Int) (out : ℕ → Int × UInt64) :
    ∀ {rest pre : List Int} (es : List (Int × UInt64)) {fuel : ℕ},
      l.occupied s = pre ++ rest → rest.length < fuel →
      l.walk? s scan n fuel (rest.head?.getD kNoPrice) es.length (overwrite out es) =
        some (es.length + min (n.toNat - es.length) rest.length,
          overwrite out (es ++ (rest.take (n.toNat - es.length)).map l.entry))
  | [], pre, es, fuel + 1, _, _ => by
      rw [walk?, if_neg fun hgo => hgo.1 rfl]
      simp
  | px :: rest, pre, es, fuel + 1, hocc, hfuel => by
      have hpx : px ∈ l.occupied s := by
        rw [hocc]
        exact List.mem_append_right _ List.mem_cons_self
      have hin : l.inBand px = true := (mem_occupied.mp hpx).1
      rw [List.head?_cons, Option.getD_some, walk?]
      by_cases hn : (es.length : Int) < n
      · rw [if_pos ⟨h.ne_of_mem_occupied hpx, hn⟩, h.frame.level?_eq hin,
          h.frame.scanWorse?_eq hscan hin, h.scanWorse_eq hocc]
        have hlen : (es ++ [l.entry px]).length = es.length + 1 := by
          rw [List.length_append, List.length_singleton]
        have hleft : n.toNat - es.length = n.toNat - (es.length + 1) + 1 := by omega
        have hwrite : Function.update (overwrite out es) es.length (px, (l.level px).totalQty) =
            overwrite out (es ++ [l.entry px]) := update_overwrite out es (l.entry px)
        have hsplit : l.occupied s = pre ++ [px] ++ rest := hocc.trans (List.append_cons ..)
        have hrec := walk?_eq hscan n out (es ++ [l.entry px]) hsplit
          (Nat.lt_of_succ_lt_succ hfuel)
        rw [hlen] at hrec
        simp only [Option.bind_eq_bind, Option.bind_some, hwrite, hrec]
        rw [hleft, List.take_succ_cons, List.map_cons, List.length_cons, List.append_assoc,
          List.singleton_append, Nat.succ_min_succ, Nat.add_assoc, Nat.add_comm 1]
      · rw [if_neg fun hgo => hn hgo.2]
        have hleft : n.toNat - es.length = 0 := by omega
        rw [hleft]
        simp

end Shape

end FlatLadder

/-! ### The snapshots of the book -/

namespace OrderBook

variable {b : OrderBook} {s : Side}

/-- `top_levels(s, n, ..)`: how many entries are written, and the caller's arrays afterwards. -/
def topLevels? (b : OrderBook) (fuel : ℕ) (s : Side) (n : Int) (out : ℕ → Int × UInt64) :
    Option (ℕ × (ℕ → Int × UInt64)) :=
  (b.ladder s).walk? s fuel n fuel (b.ladder s).best 0 out

/-- A snapshot of any depth is defined: its entries are those of the first occupied levels, in
worsening order, and the rest of the arrays is as before. -/
def WritesLevels (b : OrderBook) (s : Side) (fuel : ℕ) : Prop :=
  ∃ pxs : List Int, pxs.Pairwise (better s) ∧ (∀ px, px ∈ pxs ↔ (b.ladder s).Occ px) ∧
    ∀ n out, b.topLevels? fuel s n out = some (min n.toNat pxs.length,
      overwrite out ((pxs.take n.toNat).map fun px => (px, (b.levels s px).totalQty)))

theorem topLevels?_eq (h : (b.ladder s).Shape) (hbest : (b.ladder s).CachesBest s) {fuel : ℕ}
    (hscan : (b.ladder s).words.length ≤ fuel) (hfuel : ((b.ladder s).occupied s).length < fuel)
    (n : Int) (out : ℕ → Int × UInt64) : b.topLevels? fuel s n out =
      some (min n.toNat ((b.ladder s).occupied s).length,
        overwrite out ((((b.ladder s).occupied s).take n.toNat).map (b.ladder s).entry)) := by
  have hwalk := h.walk?_eq hscan n out [] (List.nil_append _).symm hfuel
  rw [overwrite_nil, ← hbest.best_eq, List.length_nil, Nat.zero_add, Nat.sub_zero,
    List.nil_append] at hwalk
  exact hwalk

/-- The test of the caller on the price that a scan leads to. -/
theorem price?_head? {rest : List Int} (hne : ∀ q ∈ rest, q ≠ kNoPrice) :
    FlatLadder.price? (rest.head?.getD kNoPrice) = rest.head? := by
  cases rest with
  | nil => rfl
  | cons q rest => exact if_neg (hne q List.mem_cons_self)

theorem topLevelsFrom_eq (h : (b.ladder s).Shape) : ∀ (n : ℕ) {pre rest : List Int},
    (b.ladder s).occupied s = pre ++ rest →
    b.topLevelsFrom s n rest.head? = (rest.take n).map (b.ladder s).entry
  | 0, _, _, _ => rfl
  | n + 1, _, [], _ => rfl
  | n + 1, pre, px :: rest, hocc => by
      have hsplit : (b.ladder s).occupied s = pre ++ [px] ++ rest :=
        hocc.trans (List.append_cons ..)
      have hne : ∀ q ∈ rest, q ≠ kNoPrice := by
        intro q hq
        apply h.ne_of_mem_occupied (s := s)
        rw [hsplit]
        exact List.mem_append_right _ hq
      have hnext : Ladder.worse? s (b.ladder s) px = rest.head? := by
        have hscan := h.scanWorse_eq hocc
        exact (congrArg FlatLadder.price? hscan).trans (price?_head? hne)
      rw [List.head?_cons, Book.topLevelsFrom, hnext, topLevelsFrom_eq h n hsplit,
        List.take_succ_cons, List.map_cons]
      rfl

theorem topLevels_eq_entries (h : (b.ladder s).Shape) (hbest : (b.ladder s).CachesBest s) (n : ℕ) :
    b.topLevels s n = (((b.ladder s).occupied s).take n).map (b.ladder s).entry := by
  have hfirst : Ladder.best? s (b.ladder s) = ((b.ladder s).occupied s).head? :=
    (congrArg FlatLadder.price? hbest.best_eq).trans
      (price?_head? fun _ hq => h.ne_of_mem_occupied hq)
  rw [Book.topLevels, hfirst]
  exact topLevelsFrom_eq h n (List.nil_append _).symm

/-- The loop writes the snapshot that the gateway reads. -/
theorem topLevels?_eq_topLevels (h : (b.ladder s).Shape) (hbest : (b.ladder s).CachesBest s)
    {fuel : ℕ} (hscan : (b.ladder s).words.length ≤ fuel)
    (hfuel : ((b.ladder s).occupied s).length < fuel) (n : Int) (out : ℕ → Int × UInt64) :
    b.topLevels? fuel s n out =
      some ((b.topLevels s n.toNat).length, overwrite out (b.topLevels s n.toNat)) := by
  rw [topLevels?_eq h hbest hscan hfuel, topLevels_eq_entries h hbest, List.length_map,
    List.length_take]

theorem writesLevels (h : (b.ladder s).Shape) (hbest : (b.ladder s).CachesBest s) {fuel : ℕ}
    (hscan : (b.ladder s).words.length ≤ fuel) (hfuel : ((b.ladder s).occupied s).length < fuel) :
    b.WritesLevels s fuel :=
  ⟨(b.ladder s).occupied s, FlatLadder.occupied_pairwise s _, fun _ => FlatLadder.mem_occupied,
    topLevels?_eq h hbest hscan hfuel⟩

/-- **Scans and snapshots.**  A scan of any bitmap without a bit outside the band finds the nearest
occupied price, on either side and from any price of the band; with the sentinel outside the band
and the best price cached, snapshots of any depth list the occupied levels; and all of that is so in
every run, where the occupied levels are those with an order.  Every access is inside its array, and
every loop ends. -/
theorem scan_snapshots :
    (∀ (A : Type) (s : Side) (l : FlatLadder A) (lo hi : Int), l.Frame lo hi →
      (∀ i, bit l.words i = true → i < l.levels.length) →
      ∃ enough, ∀ fuel, enough ≤ fuel → l.Scans s fuel) ∧
    (∀ (b : OrderBook) (s : Side), (b.ladder s).Shape → (b.ladder s).CachesBest s →
      ∃ enough, ∀ fuel, enough ≤ fuel → b.WritesLevels s fuel) ∧
    (∀ p : Params, p.Valid → ∀ (ops : List Op) (s : Side),
      ((run p ops).ladder s).Shape ∧ ((run p ops).ladder s).CachesBest s ∧
        ∀ px, p.inBand px = true →
          (((run p ops).ladder s).Occ px ↔ ((run p ops).levels s px).head ≠ none)) := by
  refine ⟨?_, ?_, ?_⟩
  · intro A s l lo hi hframe hbits
    exact ⟨l.words.length, fun fuel hfuel => hframe.scans hbits hfuel⟩
  · intro b s h hbest
    refine ⟨max (b.ladder s).words.length (((b.ladder s).occupied s).length + 1), ?_⟩
    intro fuel hfuel
    exact writesLevels h hbest (le_trans (le_max_left _ _) hfuel)
      (le_trans (le_max_right _ _) hfuel)
  · intro p hp ops s
    have hrepr := (run_repr hp ops).2
    have hwf : ((run p ops).ladder s).WF s := hrepr.ladder_wf s
    refine ⟨hwf.toShape, ⟨hwf.best_none, hwf.best_some⟩, fun px hpx => ?_⟩
    exact (hrepr.occ s px).trans (hrepr.head_ne_none_iff hpx).symm

/-- Two bids with two words of the bitmap between them. -/
theorem scan_snapshots_small :
    (∃ enough, ∀ fuel, enough ≤ fuel →
      ((run { poolCapacity := 2, bandHi := 300, idMapSlots := 4 }
        [.submitLimit 1 .bid 3 7 .gtc 0, .submitLimit 2 .bid 260 2 .gtc 0]).ladder .bid).Scans
          .bid fuel) ∧
    ∃ enough, ∀ fuel, enough ≤ fuel →
      (run { poolCapacity := 2, bandHi := 300, idMapSlots := 4 }
        [.submitLimit 1 .bid 3 7 .gtc 0, .submitLimit 2 .bid 260 2 .gtc 0]).WritesLevels .bid fuel := by
  obtain ⟨hscans, hwrites, hruns⟩ := scan_snapshots
  obtain ⟨hshape, hbest, -⟩ := hruns { poolCapacity := 2, bandHi := 300, idMapSlots := 4 }
    ⟨by decide, by decide, by decide, by decide⟩
    [.submitLimit 1 .bid 3 7 .gtc 0, .submitLimit 2 .bid 260 2 .gtc 0] .bid
  exact ⟨hscans _ _ _ _ _ hshape.frame hshape.bits, hwrites _ _ hshape hbest⟩

end OrderBook

end Lob
