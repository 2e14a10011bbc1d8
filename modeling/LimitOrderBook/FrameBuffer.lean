import LimitOrderBook.Frames

/-! # Reassembling frames

`FrameBuffer` of `net/framing.hpp` takes the chunks of a byte stream and hands the body of every
complete frame to a sink, which here is a function on a state `σ` of the caller.  `buf` is the filled
part of the buffer.

Whatever the chunks, the sink has seen the bodies at the front of the stream, in order; what is
left is a short tail, kept in the buffer, or a bad one, and then the buffer is poisoned
(`feed_fed`, `feedAll_fed`).  A tail that is kept is shorter than the largest frame, so there is
always room for more and the loops end. -/

namespace Lob

open Wire Frames

def kHeaderLen : ℕ := 2

def kMaxFrameLen : ℕ := 256

/-- The prefix of a stream that is made of frames, and the rest. -/
abbrev Deframes (s : List UInt8) (bodies : List (List UInt8)) (tail : List UInt8) : Prop :=
  Splits kHeaderLen kMaxFrameLen s bodies tail

structure FrameBuffer where
  buf : List UInt8 := []
  poisoned : Bool := false
deriving DecidableEq, Repr

namespace FrameBuffer

def kCapacity : ℕ := 4096

section code

variable {σ : Type} (sink : σ → List UInt8 → σ)

/-- The loop of `drain`, from `pos` on: where it stops, and `false` if it returns early. -/
def drainLoop (buf : List UInt8) : ℕ → ℕ → σ → ℕ × Bool × σ
  | 0, pos, s => (pos, true, s)
  | n + 1, pos, s =>
      if kHeaderLen ≤ buf.length - pos then
        let len := front kHeaderLen (buf.drop pos)
        if len = 0 ∨ kMaxFrameLen < len then (pos, false, s)
        else if buf.length - pos < kHeaderLen + len then (pos, true, s)
        else
          drainLoop buf n (pos + (kHeaderLen + len))
            (sink s ((buf.drop (pos + kHeaderLen)).take len))
      else (pos, true, s)

def drain (fb : FrameBuffer) (s : σ) : FrameBuffer × Bool × σ :=
  let (pos, ok, s) := drainLoop sink fb.buf (fb.buf.length + 1) 0 s
  if ok then ({ fb with buf := fb.buf.drop pos }, true, s)
  else ({ fb with poisoned := true }, false, s)

/-- The loop of `feed`. -/
def feedLoop : ℕ → FrameBuffer → List UInt8 → σ → FrameBuffer × Bool × σ
  | 0, fb, _, s => (fb, true, s)
  | n + 1, fb, data, s =>
      if data = [] then (fb, true, s)
      else
        let take := min data.length (kCapacity - fb.buf.length)
        let (fb, ok, s) := drain sink { fb with buf := fb.buf ++ data.take take } s
        if ok then feedLoop n fb (data.drop take) s else (fb, false, s)

def feed (fb : FrameBuffer) (data : List UInt8) (s : σ) : FrameBuffer × Bool × σ :=
  if fb.poisoned then (fb, false, s) else feedLoop sink (data.length + 1) fb data s

/-- Chunk after chunk, until the caller is told to drop the connection. -/
def feedAll : FrameBuffer → List (List UInt8) → σ → FrameBuffer × Bool × σ
  | fb, [], s => (fb, true, s)
  | fb, chunk :: chunks, s =>
      let (fb, ok, s) := feed sink fb chunk s
      if ok then feedAll fb chunks s else (fb, false, s)

end code

/-! ### What the sink sees -/

variable {σ : Type} (sink : σ → List UInt8 → σ)

/-- The loop stops where the frames end. -/
theorem drainLoop_spec (buf : List UInt8) : ∀ (n pos : ℕ) (s : σ), buf.length - pos < n →
    ∃ bodies tail, Deframes (buf.drop pos) bodies tail ∧
      buf.drop (drainLoop sink buf n pos s).1 = tail ∧
      (drainLoop sink buf n pos s).2.2 = bodies.foldl sink s ∧
      ((drainLoop sink buf n pos s).2.1 = true ∧ Short kHeaderLen kMaxFrameLen tail ∨
        (drainLoop sink buf n pos s).2.1 = false ∧ Bad kHeaderLen kMaxFrameLen tail)
  | n + 1, pos, s, hn => by
      have hlen : (buf.drop pos).length = buf.length - pos := List.length_drop
      unfold drainLoop
      by_cases hhead : kHeaderLen ≤ buf.length - pos
      · by_cases hbad : front kHeaderLen (buf.drop pos) = 0 ∨
          kMaxFrameLen < front kHeaderLen (buf.drop pos)
        · have htail : Bad kHeaderLen kMaxFrameLen (buf.drop pos) := ⟨by omega, hbad⟩
          simp only [if_pos hhead, if_pos hbad]
          exact ⟨[], _, .nil (Or.inl htail), rfl, rfl, Or.inr ⟨trivial, htail⟩⟩
        · by_cases hwait : buf.length - pos < kHeaderLen + front kHeaderLen (buf.drop pos)
          · have htail : Short kHeaderLen kMaxFrameLen (buf.drop pos) :=
              Or.inr ⟨by omega, by omega, by omega⟩
            simp only [if_pos hhead, if_neg hbad, if_pos hwait]
            exact ⟨[], _, .nil (Or.inr htail), rfl, rfl, Or.inl ⟨trivial, htail⟩⟩
          · -- a frame is handed on
            have hnbad : ¬ Bad kHeaderLen kMaxFrameLen (buf.drop pos) := fun h => hbad h.2
            have hnshort : ¬ Short kHeaderLen kMaxFrameLen (buf.drop pos) := by
              rintro (h | ⟨-, -, h⟩)
              · omega
              · omega
            obtain ⟨hgood, heq⟩ := eq_frame_append hnbad hnshort
            simp only [if_pos hhead, if_neg hbad, if_neg hwait]
            obtain ⟨bodies, tail, hsplit, hpos, hsunk, hok⟩ := drainLoop_spec buf n
              (pos + (kHeaderLen + front kHeaderLen (buf.drop pos)))
              (sink s ((buf.drop (pos + kHeaderLen)).take (front kHeaderLen (buf.drop pos))))
              (by unfold kHeaderLen at *; omega)
            rw [List.drop_drop] at hgood heq
            rw [List.drop_drop] at heq
            have hcons := hsplit.cons hgood
            rw [← heq] at hcons
            exact ⟨_, tail, hcons, hpos, hsunk, hok⟩
      · have htail : Short kHeaderLen kMaxFrameLen (buf.drop pos) := Or.inl (by omega)
        simp only [if_neg hhead]
        exact ⟨[], _, .nil (Or.inr htail), rfl, rfl, Or.inl ⟨trivial, htail⟩⟩

/-- The loop hands bodies to the sink, and does nothing else to the state of the caller. -/
theorem drainLoop_sunk (buf : List UInt8) : ∀ (n pos : ℕ) (s : σ),
    ∃ bodies : List (List UInt8), (drainLoop sink buf n pos s).2.2 = bodies.foldl sink s
  | 0, _, _ => ⟨[], rfl⟩
  | n + 1, pos, s => by
      simp only [drainLoop]
      split_ifs
      · exact ⟨[], rfl⟩
      · exact ⟨[], rfl⟩
      · obtain ⟨bodies, hsunk⟩ := drainLoop_sunk buf n
          (pos + (kHeaderLen + front kHeaderLen (buf.drop pos)))
          (sink s ((buf.drop (pos + kHeaderLen)).take (front kHeaderLen (buf.drop pos))))
        exact ⟨_ :: bodies, hsunk⟩
      · exact ⟨[], rfl⟩

theorem drain_sunk (fb : FrameBuffer) (s : σ) :
    ∃ bodies : List (List UInt8), (drain sink fb s).2.2 = bodies.foldl sink s := by
  obtain ⟨bodies, hsunk⟩ := drainLoop_sunk sink fb.buf (fb.buf.length + 1) 0 s
  refine ⟨bodies, ?_⟩
  unfold drain
  simp only
  split_ifs <;> exact hsunk

theorem feedLoop_sunk : ∀ (n : ℕ) (fb : FrameBuffer) (data : List UInt8) (s : σ),
    ∃ bodies : List (List UInt8), (feedLoop sink n fb data s).2.2 = bodies.foldl sink s
  | 0, _, _, _ => ⟨[], rfl⟩
  | n + 1, fb, data, s => by
      obtain ⟨bodies, hsunk⟩ := drain_sunk sink
        { fb with buf := fb.buf ++ data.take (min data.length (kCapacity - fb.buf.length)) } s
      simp only [feedLoop]
      split_ifs
      · exact ⟨[], rfl⟩
      · obtain ⟨bodies', hsunk'⟩ := feedLoop_sunk n _
          (data.drop (min data.length (kCapacity - fb.buf.length))) _
        refine ⟨bodies ++ bodies', hsunk'.trans ?_⟩
        rw [List.foldl_append, hsunk]
      · exact ⟨bodies, hsunk⟩

/-- Whatever the buffer holds, `feed` acts on the caller through the sink only. -/
theorem feed_sunk (fb : FrameBuffer) (data : List UInt8) (s : σ) :
    ∃ bodies : List (List UInt8), (feed sink fb data s).2.2 = bodies.foldl sink s := by
  unfold feed
  split_ifs
  · exact ⟨[], rfl⟩
  · exact feedLoop_sunk sink _ fb data s

/-- `x` is what feeding the rest of the stream `s` leaves. -/
structure Fed (sink : σ → List UInt8 → σ) (s : σ) (stream : List UInt8)
    (bodies : List (List UInt8)) (tail : List UInt8) (x : FrameBuffer × Bool × σ) : Prop where
  splits : Deframes stream bodies tail
  sunk : x.2.2 = bodies.foldl sink s
  outcome : x.2.1 = true ∧ Short kHeaderLen kMaxFrameLen tail ∧ x.1 = ⟨tail, false⟩ ∨
    x.2.1 = false ∧ Bad kHeaderLen kMaxFrameLen tail ∧ x.1.poisoned = true

theorem drain_fed (buf : List UInt8) (s : σ) :
    ∃ bodies tail, Fed sink s buf bodies tail (drain sink ⟨buf, false⟩ s) := by
  obtain ⟨bodies, tail, hsplit, hpos, hsunk, hok⟩ :=
    drainLoop_spec sink buf (buf.length + 1) 0 s (by omega)
  refine ⟨bodies, tail, hsplit, ?_, ?_⟩
  · unfold drain
    simp only
    split_ifs <;> exact hsunk
  · unfold drain
    rcases hok with ⟨hok, htail⟩ | ⟨hok, htail⟩
    · exact Or.inl (by simp [hok, htail, hpos])
    · exact Or.inr (by simp [hok, htail])

variable {sink}

/-- More of the stream: what was read so far ended in a short tail. -/
theorem Fed.trans {s s' : σ} {stream stream' tail tail' : List UInt8}
    {bodies bodies' : List (List UInt8)} {x : FrameBuffer × Bool × σ}
    (hsplit : Deframes stream bodies tail) (hs : s' = bodies.foldl sink s)
    (h : Fed sink s' (tail ++ stream') bodies' tail' x) :
    Fed sink s (stream ++ stream') (bodies ++ bodies') tail' x where
  splits := hsplit.append_short h.splits
  sunk := by rw [h.sunk, hs, List.foldl_append]
  outcome := h.outcome

theorem Fed.stop {s : σ} {stream tail : List UInt8} {bodies : List (List UInt8)}
    {x : FrameBuffer × Bool × σ} (h : Fed sink s stream bodies tail x) (hok : x.2.1 = false)
    (stream' : List UInt8) : Fed sink s (stream ++ stream') bodies (tail ++ stream') x := by
  rcases h.outcome with ⟨hok', -⟩ | ⟨-, hbad, hpoison⟩
  · rw [hok] at hok'
    cases hok'
  · exact ⟨h.splits.append_bad hbad stream', h.sunk, Or.inr ⟨hok, hbad.append stream', hpoison⟩⟩

variable (sink)

theorem feedLoop_fed : ∀ (n : ℕ) (buf data : List UInt8) (s : σ), data.length < n →
    Short kHeaderLen kMaxFrameLen buf →
    ∃ bodies tail, Fed sink s (buf ++ data) bodies tail (feedLoop sink n ⟨buf, false⟩ data s)
  | n + 1, buf, data, s, hn, hshort => by
      unfold feedLoop
      by_cases hdata : data = []
      · subst hdata
        rw [List.append_nil]
        simp only [if_true]
        exact ⟨[], buf, .nil (Or.inr hshort), rfl, Or.inl ⟨rfl, hshort, rfl⟩⟩
      · have hpos := List.length_pos_of_ne_nil hdata
        have hbuf := hshort.length_lt (by decide)
        -- there is room for at least one byte
        have htake : 0 < min data.length (kCapacity - buf.length) := by
          unfold kHeaderLen kMaxFrameLen at hbuf
          unfold kCapacity
          omega
        have hsplit : buf ++ data = buf ++ data.take (min data.length (kCapacity - buf.length)) ++
            data.drop (min data.length (kCapacity - buf.length)) := by
          rw [List.append_assoc, List.take_append_drop]
        obtain ⟨bodies, tail, hfed⟩ := drain_fed sink
          (buf ++ data.take (min data.length (kCapacity - buf.length))) s
        rw [hsplit]
        simp only [if_neg hdata]
        rcases hfed.outcome with ⟨hok, htail, hfb⟩ | ⟨hok, htail, hpoison⟩
        · obtain ⟨bodies', tail', hrec⟩ := feedLoop_fed n tail
            (data.drop (min data.length (kCapacity - buf.length))) (bodies.foldl sink s)
            (by rw [List.length_drop]; omega) htail
          rw [if_pos hok, hfb, hfed.sunk]
          exact ⟨_, _, Fed.trans hfed.splits rfl hrec⟩
        · rw [if_neg (by rw [hok]; decide)]
          have hstop := hfed.stop hok (data.drop (min data.length (kCapacity - buf.length)))
          exact ⟨bodies, _, hstop.splits, hstop.sunk, Or.inr ⟨rfl, htail.append _, hpoison⟩⟩

/-- **`feed` hands on the frames at the front of what it has.** -/
theorem feed_fed {buf : List UInt8} (hshort : Short kHeaderLen kMaxFrameLen buf)
    (data : List UInt8) (s : σ) :
    ∃ bodies tail, Fed sink s (buf ++ data) bodies tail (feed sink ⟨buf, false⟩ data s) :=
  feedLoop_fed sink _ buf data s (Nat.lt_add_one _) hshort

/-- **Frames on their way**: of the bytes that complete the buffer to frames, a chunk is fed, and the
rest completes what the buffer then holds. -/
theorem feed_cut {buf chunk rest : List UInt8} {bodies : List (List UInt8)}
    (hshort : Short kHeaderLen kMaxFrameLen buf) (hgood : ∀ b ∈ bodies, Good kMaxFrameLen b)
    (hcut : buf ++ (chunk ++ rest) = bodies.flatMap (frame kHeaderLen)) (s : σ) :
    ∃ (front back : List (List UInt8)) (tail : List UInt8), bodies = front ++ back ∧
      Short kHeaderLen kMaxFrameLen tail ∧ tail ++ rest = back.flatMap (frame kHeaderLen) ∧
      feed sink ⟨buf, false⟩ chunk s = (⟨tail, false⟩, true, front.foldl sink s) := by
  rw [← List.append_assoc] at hcut
  obtain ⟨front, back, tail, hbodies, hsplit, htail, hrest⟩ :=
    Splits.of_cut (by decide) (by decide) hgood hcut
  obtain ⟨front', tail', hfed⟩ := feed_fed sink hshort chunk s
  obtain ⟨rfl, rfl⟩ := hfed.splits.unique (by decide) hsplit
  refine ⟨front', back, tail', hbodies, htail, hrest, ?_⟩
  rcases hfed.outcome with ⟨hok, -, hfb⟩ | ⟨-, hbad, -⟩
  · exact Prod.ext hfb (Prod.ext hok hfed.sunk)
  · exact absurd htail (not_bad_short hbad)

/-- **However the stream is cut into chunks.** -/
theorem feedAll_fed : ∀ (chunks : List (List UInt8)) (buf : List UInt8) (s : σ),
    Short kHeaderLen kMaxFrameLen buf →
    ∃ bodies tail, Fed sink s (buf ++ chunks.flatten) bodies tail
      (feedAll sink ⟨buf, false⟩ chunks s)
  | [], buf, s, hshort => by
      rw [List.flatten_nil, List.append_nil]
      exact ⟨[], buf, .nil (Or.inr hshort), rfl, Or.inl ⟨rfl, hshort, rfl⟩⟩
  | chunk :: chunks, buf, s, hshort => by
      obtain ⟨bodies, tail, hfed⟩ := feed_fed sink hshort chunk s
      unfold feedAll
      rw [List.flatten_cons, ← List.append_assoc]
      rcases hfed.outcome with ⟨hok, htail, hfb⟩ | ⟨hok, htail, hpoison⟩
      · obtain ⟨bodies', tail', hrec⟩ := feedAll_fed chunks tail (bodies.foldl sink s) htail
        simp only [hok, hfb, hfed.sunk, if_true]
        exact ⟨_, _, Fed.trans hfed.splits rfl hrec⟩
      · have hstop := hfed.stop hok chunks.flatten
        simp only [hok]
        exact ⟨bodies, _, hstop.splits, hstop.sunk, Or.inr ⟨rfl, htail.append _, hpoison⟩⟩

end FrameBuffer

end Lob
