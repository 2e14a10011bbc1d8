import LimitOrderBook.Codec

/-! # The buffer of a deframer

`FrameBuffer` of `net/framing.hpp` as it runs, on the 4096 bytes of its buffer: `feed` copies what
fits behind the filled part, `drain` reads lengths and hands on bodies where they stand, and moves
what is left to the front.  Every copy, read and move is one that fails where it would leave the
buffer, every difference of two sizes one that fails where it would wrap, and a loop fails when its
fuel is out.

None of that happens (`feed_eq`): the buffer goes with the one of `FrameBuffer.lean`, whose filled
part is a list.  So all the calls together hand on what the parser of the whole stream finds
(`deframer`). -/

namespace Lob

open Wire Frames

structure RawFrameBuffer where
  buf : ℕ → UInt8
  fill : ℕ := 0
  poisoned : Bool := false

namespace RawFrameBuffer

open FrameBuffer (kCapacity)

section code

variable {σ : Type} (sink : σ → List UInt8 → σ)

/-- The loop of `drain`, from `pos` on: where it stops, and `false` if it returns early. -/
def drainLoop (m : RawFrameBuffer) : ℕ → ℕ → σ → Option (ℕ × Bool × σ)
  | 0, _, _ => none
  | fuel + 1, pos, s => do
      let left ← minus? m.fill pos
      if kHeaderLen ≤ left then
        let field ← load? kCapacity m.buf pos kHeaderLen
        let len := value field
        if len = 0 ∨ kMaxFrameLen < len then some (pos, false, s)
        else if left < kHeaderLen + len then some (pos, true, s)
        else
          let body ← load? kCapacity m.buf (pos + kHeaderLen) len
          drainLoop m fuel (pos + (kHeaderLen + len)) (sink s body)
      else some (pos, true, s)

def drain (fuel : ℕ) (m : RawFrameBuffer) (s : σ) : Option (RawFrameBuffer × Bool × σ) := do
  let (pos, ok, s) ← drainLoop sink m fuel 0 s
  if ok then
    if 0 < pos then
      let left ← minus? m.fill pos
      let rest ← load? kCapacity m.buf pos left
      let buf ← store? kCapacity m.buf 0 rest
      some ({ m with buf := buf, fill := left }, true, s)
    else some (m, true, s)
  else some ({ m with poisoned := true }, false, s)

/-- The loop of `feed`; `inner` is the fuel of `drain`. -/
def feedLoop (inner : ℕ) : ℕ → RawFrameBuffer → List UInt8 → σ → Option (RawFrameBuffer × Bool × σ)
  | 0, _, _, _ => none
  | fuel + 1, m, data, s =>
      if data = [] then some (m, true, s)
      else do
        let space ← minus? kCapacity m.fill
        let take := min data.length space
        let buf ← store? kCapacity m.buf m.fill (data.take take)
        let (m, ok, s) ← drain sink inner { m with buf := buf, fill := m.fill + take } s
        if ok then feedLoop inner fuel m (data.drop take) s else some (m, false, s)

def feed (fuel : ℕ) (m : RawFrameBuffer) (data : List UInt8) (s : σ) :
    Option (RawFrameBuffer × Bool × σ) :=
  if m.poisoned then some (m, false, s) else feedLoop sink fuel fuel m data s

end code

/-- Call after call, also once one has returned `false`: what each returns and hands to its sink. -/
def feeds (fuel : ℕ) : RawFrameBuffer → List (List UInt8) →
    Option (RawFrameBuffer × List (Bool × List (List UInt8)))
  | m, [] => some (m, [])
  | m, chunk :: chunks => do
      let (m, ok, bodies) ← feed keep fuel m chunk []
      let (m, calls) ← feeds fuel m chunks
      some (m, (ok, bodies) :: calls)

/-! ### The filled part -/

/-- The filled part of the buffer is the list. -/
structure Holds (m : RawFrameBuffer) (fb : FrameBuffer) : Prop where
  filled : load m.buf 0 m.fill = fb.buf
  room : m.fill ≤ kCapacity
  poisoned : m.poisoned = fb.poisoned

section holds

variable {σ : Type} (sink : σ → List UInt8 → σ) {m : RawFrameBuffer} {fb : FrameBuffer}
  {buf : List UInt8}

theorem Holds.length_eq (h : m.Holds fb) : fb.buf.length = m.fill := by
  rw [← h.filled, length_load]

/-- A read inside the filled part. -/
theorem Holds.load?_eq (h : m.Holds fb) (pos n : ℕ) (hle : pos + n ≤ m.fill) :
    load? kCapacity m.buf pos n = some ((fb.buf.drop pos).take n) := by
  have hroom := h.room
  rw [load?, if_pos (by omega), load_slice hle, h.filled]

/-- Bytes are copied behind the filled part. -/
theorem Holds.append (h : m.Holds fb) (bs : List UInt8) (hroom : m.fill + bs.length ≤ kCapacity) :
    Holds { m with buf := store m.buf m.fill bs, fill := m.fill + bs.length }
      ⟨fb.buf ++ bs, fb.poisoned⟩ := by
  refine ⟨?_, hroom, h.poisoned⟩
  have hfront : load (store m.buf m.fill bs) 0 m.fill = load m.buf 0 m.fill :=
    load_congr fun i hi => store_of_lt (by omega)
  have hback : load (store m.buf m.fill bs) m.fill bs.length = bs := load_store
  rw [load_add, Nat.zero_add, hfront, hback, h.filled]

/-- **The loop of `drain`** reads inside the filled part, and ends. -/
theorem drainLoop_eq (h : m.Holds fb) : ∀ (fuel n pos : ℕ) (s : σ), pos ≤ m.fill →
    m.fill - pos < fuel → m.fill - pos < n →
    m.drainLoop sink fuel pos s = some (FrameBuffer.drainLoop sink fb.buf n pos s) ∧
      (FrameBuffer.drainLoop sink fb.buf n pos s).1 ≤ m.fill
  | fuel + 1, n + 1, pos, s, hpos, hfuel, hn => by
      have hlen := h.length_eq
      have hleft : minus? m.fill pos = some (m.fill - pos) := if_pos hpos
      unfold drainLoop FrameBuffer.drainLoop
      simp only [hleft, hlen, Option.bind_eq_bind, Option.bind_some]
      by_cases hhead : kHeaderLen ≤ m.fill - pos
      · have hfield := h.load?_eq pos kHeaderLen (by omega)
        have hvalue : value ((fb.buf.drop pos).take kHeaderLen) = front kHeaderLen (fb.buf.drop pos) :=
          rfl
        simp only [if_pos hhead, hfield, hvalue, Option.bind_some]
        generalize front kHeaderLen (fb.buf.drop pos) = len
        by_cases hbad : len = 0 ∨ kMaxFrameLen < len
        · simp only [if_pos hbad]
          exact ⟨trivial, hpos⟩
        · by_cases hwait : m.fill - pos < kHeaderLen + len
          · simp only [if_neg hbad, if_pos hwait]
            exact ⟨trivial, hpos⟩
          · -- a body is handed on, and the position moves by at least a header
            have hbody := h.load?_eq (pos + kHeaderLen) len (by omega)
            have hstep : 0 < kHeaderLen := by decide
            simp only [if_neg hbad, if_neg hwait, hbody, Option.bind_some]
            apply drainLoop_eq h
            · omega
            · omega
            · omega
      · simp only [if_neg hhead]
        exact ⟨trivial, hpos⟩

theorem drain_eq (h : m.Holds ⟨buf, false⟩) {fuel : ℕ} (hfuel : m.fill < fuel) (s : σ) :
    ∃ m' : RawFrameBuffer,
      m.drain sink fuel s = some (m', (FrameBuffer.drain sink ⟨buf, false⟩ s).2) ∧
        m'.Holds (FrameBuffer.drain sink ⟨buf, false⟩ s).1 := by
  have hlen : buf.length = m.fill := h.length_eq
  have hroom : m.fill ≤ kCapacity := h.room
  obtain ⟨hloop, hpos⟩ := drainLoop_eq sink h fuel (buf.length + 1) 0 s (Nat.zero_le _)
    hfuel (by omega)
  unfold drain FrameBuffer.drain
  simp only [hloop, Option.bind_eq_bind, Option.bind_some]
  generalize FrameBuffer.drainLoop sink buf (buf.length + 1) 0 s = x at hpos
  obtain ⟨pos, ok, s'⟩ := x
  cases ok with
  | false => exact ⟨_, rfl, h.filled, h.room, rfl⟩
  | true =>
      by_cases hzero : 0 < pos
      · -- what is left moves to the front
        have hleft : minus? m.fill pos = some (m.fill - pos) := if_pos hpos
        have hdrop : (buf.drop pos).length = m.fill - pos := by
          rw [List.length_drop, hlen]
        have hrest : load? kCapacity m.buf pos (m.fill - pos) = some (buf.drop pos) := by
          rw [h.load?_eq _ _ (Nat.le_of_eq (Nat.add_sub_cancel' hpos)), List.take_of_length_le]
          exact Nat.le_of_eq hdrop
        have hmove : store? kCapacity m.buf 0 (buf.drop pos) = some (store m.buf 0 (buf.drop pos)) :=
          if_pos (by omega)
        simp only [if_true, if_pos hzero, hleft, hrest, hmove, Option.bind_some]
        refine ⟨_, rfl, ?_, Nat.le_trans (Nat.sub_le _ _) hroom, h.poisoned⟩
        rw [← hdrop]
        exact load_store
      · obtain rfl : pos = 0 := by omega
        simp only [if_true, Nat.lt_irrefl, if_false, List.drop_zero]
        exact ⟨m, rfl, h⟩

/-- **The loop of `feed`** copies into the free part, and ends: there is always room. -/
theorem feedLoop_eq {inner : ℕ} (hinner : kCapacity < inner) : ∀ (fuel n : ℕ) (m : RawFrameBuffer)
    (buf data : List UInt8) (s : σ), data.length < fuel → data.length < n → m.Holds ⟨buf, false⟩ →
    Short kHeaderLen kMaxFrameLen buf →
    ∃ m' : RawFrameBuffer,
      m.feedLoop sink inner fuel data s =
          some (m', (FrameBuffer.feedLoop sink n ⟨buf, false⟩ data s).2) ∧
        m'.Holds (FrameBuffer.feedLoop sink n ⟨buf, false⟩ data s).1
  | fuel + 1, n + 1, m, buf, data, s, hfuel, hn, h, hshort => by
      unfold feedLoop FrameBuffer.feedLoop
      by_cases hdata : data = []
      · simp only [if_pos hdata]
        exact ⟨m, rfl, h⟩
      · have hpos := List.length_pos_of_ne_nil hdata
        have hlen : buf.length = m.fill := h.length_eq
        have hroom : m.fill ≤ kCapacity := h.room
        have hbuf := hshort.length_lt (by decide)
        have hspace : minus? kCapacity m.fill = some (kCapacity - buf.length) := by
          rw [minus?, if_pos hroom, hlen]
        generalize htake : min data.length (kCapacity - buf.length) = take
        have hsize : (data.take take).length = take := by
          apply List.length_take_of_le
          omega
        have hgrow : 0 < take := by
          unfold kHeaderLen kMaxFrameLen at hbuf
          unfold kCapacity at htake
          omega
        have hcopy : store? kCapacity m.buf m.fill (data.take take) =
            some (store m.buf m.fill (data.take take)) := by
          apply if_pos
          omega
        have hfilled : Holds { m with
            buf := store m.buf m.fill (data.take take), fill := m.fill + take }
            ⟨buf ++ data.take take, false⟩ := by
          have happend := h.append (data.take take) (by omega)
          rwa [hsize] at happend
        obtain ⟨m', hdrain, hm'⟩ := drain_eq sink hfilled
          (Nat.lt_of_le_of_lt hfilled.room hinner) s
        obtain ⟨bodies, tail, hfed⟩ := FrameBuffer.drain_fed sink (buf ++ data.take take) s
        simp only [if_neg hdata, hspace, htake, hcopy, hdrain, Option.bind_eq_bind, Option.bind_some]
        rcases hfed.outcome with ⟨hok, htail, hfb⟩ | ⟨hok, -, -⟩
        · rw [hfb] at hm'
          simp only [hok, hfb, if_true]
          apply feedLoop_eq hinner
          · rw [List.length_drop]
            omega
          · rw [List.length_drop]
            omega
          · exact hm'
          · exact htail
        · simp only [hok, Bool.false_eq_true, if_false]
          exact ⟨m', rfl, hm'⟩

/-- **`feed` keeps to its buffer and returns**, and does what it does on the list. -/
theorem feed_eq {fuel : ℕ} {data : List UInt8} (h : m.Holds fb)
    (hshort : fb.poisoned = false → Short kHeaderLen kMaxFrameLen fb.buf)
    (hcap : kCapacity < fuel) (hfuel : data.length < fuel) (s : σ) :
    ∃ m' : RawFrameBuffer, m.feed sink fuel data s = some (m', (FrameBuffer.feed sink fb data s).2) ∧
      m'.Holds (FrameBuffer.feed sink fb data s).1 := by
  unfold feed FrameBuffer.feed
  obtain ⟨buf, poisoned⟩ := fb
  rw [h.poisoned]
  cases poisoned with
  | true => exact ⟨m, rfl, h⟩
  | false =>
      exact feedLoop_eq sink hcap fuel (data.length + 1) m buf data s hfuel (Nat.lt_succ_self _) h
        (hshort rfl)

end holds

/-! ### A whole stream -/

/-- The parser of a whole stream: the bodies of the frames at its front, and where it stops. -/
def deframe (s : List UInt8) : List (List UInt8) × List UInt8 := split kHeaderLen kMaxFrameLen s

theorem deframe_splits (s : List UInt8) : Deframes s (deframe s).1 (deframe s).2 :=
  split_splits kHeaderLen kMaxFrameLen s

theorem deframe_eq {s tail : List UInt8} {bodies : List (List UInt8)} (h : Deframes s bodies tail) :
    deframe s = (bodies, tail) := by
  obtain ⟨hbodies, htail⟩ := (deframe_splits s).unique (by decide) h
  exact Prod.ext hbodies htail

/-- The bytes of a stream up to its first bad length, and with it. -/
def badEnd (s : List UInt8) : Option ℕ :=
  let tail := (deframe s).2
  if Bad kHeaderLen kMaxFrameLen tail then some (s.length - tail.length + kHeaderLen) else none

/-- A prefix is bad if it has the first bad length of the stream. -/
theorem bad_iff_badEnd (s t : List UInt8) :
    Bad kHeaderLen kMaxFrameLen (deframe s).2 ↔ ∃ e ∈ badEnd (s ++ t), e ≤ s.length := by
  have hall := deframe_splits (s ++ t)
  rw [(deframe_splits s).bad_iff (by decide) hall]
  by_cases hbad : Bad kHeaderLen kMaxFrameLen (deframe (s ++ t)).2
  · have hend : badEnd (s ++ t) =
        some ((s ++ t).length - (deframe (s ++ t)).2.length + kHeaderLen) := if_pos hbad
    have hle := congrArg List.length hall.bytes
    simp only [List.length_append] at hle
    simp only [hend, hbad, List.length_append, Option.mem_def, Option.some.injEq, exists_eq_left',
      true_and]
    omega
  · have hend : badEnd (s ++ t) = none := if_neg hbad
    refine iff_of_false (fun h => hbad h.1) ?_
    rintro ⟨e, he, -⟩
    rw [hend] at he
    cases he

/-- The buffer after the calls on a stream. -/
def After (m : RawFrameBuffer) (stream : List UInt8) : Prop :=
  Short kHeaderLen kMaxFrameLen (deframe stream).2 ∧ m.Holds ⟨(deframe stream).2, false⟩ ∨
    Bad kHeaderLen kMaxFrameLen (deframe stream).2 ∧ m.poisoned = true

variable {fuel : ℕ} {m : RawFrameBuffer} {stream : List UInt8}

theorem After.poisoned_iff (h : m.After stream) :
    m.poisoned = true ↔ Bad kHeaderLen kMaxFrameLen (deframe stream).2 := by
  rcases h with ⟨hshort, hholds⟩ | ⟨hbad, hpoisoned⟩
  · refine iff_of_false ?_ fun hbad => not_bad_short hbad hshort
    rw [hholds.poisoned]
    exact Bool.false_ne_true
  · exact iff_of_true hpoisoned hbad

/-- **One call** hands on the frames that it completes, and returns `false` from a bad length on. -/
theorem feed_after (hcap : kCapacity < fuel) {data : List UInt8} (hfuel : data.length < fuel)
    (h : m.After stream) :
    ∃ m' ok bodies, m.feed keep fuel data [] = some (m', ok, bodies) ∧ m'.After (stream ++ data) ∧
      (deframe (stream ++ data)).1 = (deframe stream).1 ++ bodies ∧ ok = !m'.poisoned := by
  rcases h with ⟨hshort, hholds⟩ | ⟨hbad, hpoisoned⟩
  · obtain ⟨m', hfeed, hm'⟩ := feed_eq keep hholds (fun _ => hshort) hcap hfuel []
    obtain ⟨bodies, tail, hfed⟩ := FrameBuffer.feed_fed keep hshort data []
    have hall := deframe_eq ((deframe_splits stream).append_short hfed.splits)
    have hsunk := hfed.sunk
    rw [foldl_keep, List.nil_append] at hsunk
    refine ⟨m', (FrameBuffer.feed keep ⟨(deframe stream).2, false⟩ data []).2.1, bodies,
      hfeed.trans ?_, ?_, ?_, ?_⟩
    · rw [← hsunk]
    · rw [After, hall]
      rcases hfed.outcome with ⟨-, htail, hfb⟩ | ⟨-, htail, hpoisoned⟩
      · rw [hfb] at hm'
        exact Or.inl ⟨htail, hm'⟩
      · exact Or.inr ⟨htail, hm'.poisoned.trans hpoisoned⟩
    · rw [hall]
    · rw [hm'.poisoned]
      rcases hfed.outcome with ⟨hok, -, hfb⟩ | ⟨hok, -, hpoisoned⟩
      · rw [hok, hfb]
        rfl
      · rw [hok, hpoisoned]
        rfl
  · have hall := deframe_eq ((deframe_splits stream).append_bad hbad data)
    refine ⟨m, false, [], if_pos hpoisoned, ?_, ?_, ?_⟩
    · rw [After, hall]
      exact Or.inr ⟨hbad.append data, hpoisoned⟩
    · rw [hall, List.append_nil]
    · rw [hpoisoned]
      rfl

/-- A poisoned buffer hands on nothing. -/
theorem feeds_poisoned (h : m.poisoned = true) :
    ∀ chunks, m.feeds fuel chunks = some (m, chunks.map fun _ => (false, []))
  | [] => rfl
  | chunk :: chunks => by
      have hfeed : m.feed keep fuel chunk [] = some (m, false, []) := if_pos h
      unfold feeds
      simp only [hfeed, feeds_poisoned h chunks, Option.bind_eq_bind, Option.bind_some]
      rfl

/-- What calls on a stream do, after a stream that has been fed already. -/
structure Deframed (stream : List UInt8) (chunks : List (List UInt8))
    (calls : List (Bool × List (List UInt8))) : Prop where
  length : calls.length = chunks.length
  bodies : (deframe (stream ++ chunks.flatten)).1 = (deframe stream).1 ++ calls.flatMap Prod.snd
  verdict : ∀ (i : ℕ) ok bodies, calls[i]? = some (ok, bodies) →
    (ok = false ↔ Bad kHeaderLen kMaxFrameLen (deframe (stream ++ (chunks.take (i + 1)).flatten)).2)
  silent : ∀ (i j : ℕ) ok bodies bodies', i < j → calls[i]? = some (false, bodies) →
    calls[j]? = some (ok, bodies') → ok = false ∧ bodies' = []

theorem Deframed.nil (stream : List UInt8) : Deframed stream [] [] := by
  refine ⟨rfl, ?_, ?_, ?_⟩
  · rw [List.flatten_nil, List.append_nil, List.flatMap_nil, List.append_nil]
  · intro i ok bodies hi
    cases hi
  · intro i j ok bodies bodies' _ hi
    cases hi

/-- A call in front of others: they hand on nothing if it has returned `false`. -/
theorem Deframed.cons {chunk : List UInt8} {chunks bodies : List (List UInt8)} {ok : Bool}
    {calls : List (Bool × List (List UInt8))}
    (hbodies : (deframe (stream ++ chunk)).1 = (deframe stream).1 ++ bodies)
    (hverdict : ok = false ↔ Bad kHeaderLen kMaxFrameLen (deframe (stream ++ chunk)).2)
    (hsilent : ok = false → ∀ call ∈ calls, call = (false, []))
    (h : Deframed (stream ++ chunk) chunks calls) :
    Deframed stream (chunk :: chunks) ((ok, bodies) :: calls) := by
  refine ⟨?_, ?_, ?_, ?_⟩
  · rw [List.length_cons, h.length, List.length_cons]
  · rw [List.flatten_cons, ← List.append_assoc, h.bodies, hbodies, List.flatMap_cons,
      List.append_assoc]
  · intro i ok' bodies' hi
    cases i with
    | zero =>
        obtain ⟨rfl, rfl⟩ := Prod.mk.inj (Option.some.inj hi)
        rw [Nat.zero_add, List.take_succ_cons, List.take_zero, List.flatten_cons,
          List.flatten_nil, List.append_nil]
        exact hverdict
    | succ i =>
        rw [List.take_succ_cons, List.flatten_cons, ← List.append_assoc]
        exact h.verdict i ok' bodies' hi
  · intro i j ok' bodies' bodies'' hij hi hj
    obtain ⟨j, rfl⟩ : ∃ k, j = k + 1 := ⟨j - 1, by omega⟩
    rw [List.getElem?_cons_succ] at hj
    cases i with
    | zero =>
        obtain ⟨hfalse, -⟩ := Prod.mk.inj (Option.some.inj hi)
        exact Prod.mk.inj (hsilent hfalse _ (List.mem_of_getElem? hj))
    | succ i => exact h.silent i j ok' bodies' bodies'' (by omega) hi hj

/-- **All the calls.** -/
theorem feeds_after (hcap : kCapacity < fuel) : ∀ {chunks : List (List UInt8)}
    {m : RawFrameBuffer} {stream : List UInt8}, (∀ chunk ∈ chunks, chunk.length < fuel) →
    m.After stream →
    ∃ m' calls, m.feeds fuel chunks = some (m', calls) ∧ m'.After (stream ++ chunks.flatten) ∧
      Deframed stream chunks calls
  | [], m, stream, _, h => by
      rw [List.flatten_nil, List.append_nil]
      exact ⟨m, [], rfl, h, .nil stream⟩
  | chunk :: chunks, m, stream, hfuel, h => by
      obtain ⟨m₁, ok, bodies, hfeed, h₁, hbodies, hok⟩ :=
        feed_after hcap (hfuel chunk List.mem_cons_self) h
      obtain ⟨m', calls, hfeeds, h', hcalls⟩ :=
        feeds_after hcap (fun c hc => hfuel c (List.mem_cons_of_mem _ hc)) h₁
      have hrun : m.feeds fuel (chunk :: chunks) = some (m', (ok, bodies) :: calls) := by
        unfold feeds
        simp only [hfeed, hfeeds, Option.bind_eq_bind, Option.bind_some]
      have hfalse : ok = false ↔ m₁.poisoned = true := by
        rw [hok, Bool.not_eq_false']
      refine ⟨m', _, hrun, ?_, hcalls.cons hbodies (hfalse.trans h₁.poisoned_iff) ?_⟩
      · rw [List.flatten_cons, ← List.append_assoc]
        exact h'
      · intro hstop call hcall
        rw [feeds_poisoned (hfalse.mp hstop)] at hfeeds
        obtain ⟨-, rfl⟩ := Prod.mk.inj (Option.some.inj hfeeds)
        obtain ⟨_, -, rfl⟩ := List.mem_map.mp hcall
        rfl

/-- What the calls on a stream do: each has its verdict and the bodies it hands on. -/
structure WholeStream (chunks : List (List UInt8)) (m : RawFrameBuffer)
    (calls : List (Bool × List (List UInt8))) : Prop where
  length : calls.length = chunks.length
  bodies : calls.flatMap Prod.snd = (deframe chunks.flatten).1
  verdict : ∀ (i : ℕ) ok bodies, calls[i]? = some (ok, bodies) →
    (ok = false ↔ ∃ e ∈ badEnd chunks.flatten, e ≤ (chunks.take (i + 1)).flatten.length)
  silent : ∀ (i j : ℕ) ok bodies bodies', i < j → calls[i]? = some (false, bodies) →
    calls[j]? = some (ok, bodies') → ok = false ∧ bodies' = []
  room : m.poisoned = false → m.fill ≤ kHeaderLen + kMaxFrameLen - 1

/-- **The deframer**: however a stream is cut into calls, they return without leaving the buffer
and hand on what the parser of the whole stream finds. -/
theorem deframer (buf : ℕ → UInt8) (chunks : List (List UInt8)) :
    ∃ enough, ∀ fuel, enough ≤ fuel →
      ∃ m calls, feeds fuel { buf := buf } chunks = some (m, calls) ∧ WholeStream chunks m calls := by
  refine ⟨kCapacity + 1 + chunks.flatten.length, fun fuel hfuel => ?_⟩
  have hchunk : ∀ chunk ∈ chunks, chunk.length < fuel := by
    intro chunk hmem
    have := (List.sublist_flatten_of_mem hmem).length_le
    omega
  have hstart : After { buf := buf } [] := Or.inl ⟨short_nil (by decide), rfl, Nat.zero_le _, rfl⟩
  obtain ⟨m, calls, hrun, hafter, hcalls⟩ := feeds_after (by omega) hchunk hstart
  refine ⟨m, calls, hrun, hcalls.length, hcalls.bodies.symm, ?_, hcalls.silent, ?_⟩
  · intro i ok bodies hi
    rw [hcalls.verdict i ok bodies hi, List.nil_append,
      bad_iff_badEnd _ (chunks.drop (i + 1)).flatten, ← List.flatten_append, List.take_append_drop]
  · intro hpoisoned
    rcases hafter with ⟨hshort, hholds⟩ | ⟨-, hpoisoned'⟩
    · have hlt := hshort.length_lt (by decide)
      have hlen : (deframe ([] ++ chunks.flatten)).2.length = m.fill := hholds.length_eq
      omega
    · rw [hpoisoned] at hpoisoned'
      cases hpoisoned'

end RawFrameBuffer

end Lob
