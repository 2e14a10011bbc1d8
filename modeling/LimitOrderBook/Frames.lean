import LimitOrderBook.Wire

/-! # Length-prefixed frames

A frame is a body behind its length, a field of `w` bytes; a length is good when it is positive and
at most `m`.  `Splits` cuts a byte string into the frames at its front and a tail that does not
start with one: either the tail is too short to tell (`Short`), or its length field is no good
(`Bad`).

Every string splits (`split_splits`) in one way only (`Splits.unique`).  A string that grows keeps
its frames: a bad tail stays bad, and the frames of a short one are found once the rest is there
(`Splits.append_bad`, `Splits.append_short`).  The bad tail of a string shows in a prefix as soon as
that has the length field (`Splits.bad_iff`). -/

namespace Frames

open Wire

/-- The frame of a body. -/
def frame (w : ℕ) (body : List UInt8) : List UInt8 := bytes w body.length ++ body

/-- The length field at the front. -/
def front (w : ℕ) (s : List UInt8) : ℕ := value (s.take w)

/-- A length field is there, and it is no good. -/
def Bad (w m : ℕ) (s : List UInt8) : Prop := w ≤ s.length ∧ (front w s = 0 ∨ m < front w s)

/-- The frame at the front is not complete. -/
def Short (w m : ℕ) (s : List UInt8) : Prop :=
  s.length < w ∨ 0 < front w s ∧ front w s ≤ m ∧ s.length < w + front w s

instance (w m : ℕ) (s : List UInt8) : Decidable (Bad w m s) := inferInstanceAs (Decidable (_ ∧ _))

instance (w m : ℕ) (s : List UInt8) : Decidable (Short w m s) :=
  inferInstanceAs (Decidable (_ ∨ _))

/-- A body of good length. -/
def Good (m : ℕ) (body : List UInt8) : Prop := 0 < body.length ∧ body.length ≤ m

/-- The frames at the front of a string, and its tail. -/
structure Splits (w m : ℕ) (s : List UInt8) (bodies : List (List UInt8)) (tail : List UInt8) :
    Prop where
  bytes : s = bodies.flatMap (frame w) ++ tail
  good : ∀ b ∈ bodies, Good m b
  tail : Bad w m tail ∨ Short w m tail

variable {w m : ℕ} {s t body tail tail' : List UInt8} {bodies bodies' : List (List UInt8)}

@[simp] theorem length_frame (w : ℕ) (body : List UInt8) :
    (frame w body).length = w + body.length := by
  rw [frame, List.length_append, length_bytes]

/-- The length field of a frame says how long it is. -/
theorem front_frame (hm : m < 256 ^ w) (hb : Good m body) (s : List UInt8) :
    front w (frame w body ++ s) = body.length := by
  rw [front, frame, List.append_assoc, List.take_left' (length_bytes w _)]
  exact value_bytes (Nat.lt_of_le_of_lt hb.2 hm)

theorem not_bad_short (hbad : Bad w m s) (hshort : Short w m s) : False := by
  obtain ⟨hlen, hfront⟩ := hbad
  rcases hshort with h | ⟨h1, h2, -⟩
  · omega
  · omega

theorem not_bad_frame (hm : m < 256 ^ w) (hb : Good m body) : ¬ Bad w m (frame w body ++ s) := by
  rintro ⟨-, hfront⟩
  rw [front_frame hm hb] at hfront
  obtain ⟨h1, h2⟩ := hb
  omega

theorem not_short_frame (hm : m < 256 ^ w) (hb : Good m body) :
    ¬ Short w m (frame w body ++ s) := by
  unfold Short
  rw [front_frame hm hb, List.length_append, length_frame]
  omega

/-- What is neither bad nor short starts with a frame. -/
theorem eq_frame_append (hbad : ¬ Bad w m s) (hshort : ¬ Short w m s) :
    Good m ((s.drop w).take (front w s)) ∧
      s = frame w ((s.drop w).take (front w s)) ++ s.drop (w + front w s) := by
  have hlen : w ≤ s.length := by
    by_contra h
    exact hshort (Or.inl (by omega))
  have hgood : 0 < front w s ∧ front w s ≤ m := by
    have hfront : ¬ (front w s = 0 ∨ m < front w s) := fun h => hbad ⟨hlen, h⟩
    omega
  have hroom : w + front w s ≤ s.length := by
    by_contra h
    exact hshort (Or.inr ⟨hgood.1, hgood.2, by omega⟩)
  have hbody : ((s.drop w).take (front w s)).length = front w s := by
    rw [List.length_take, List.length_drop]
    omega
  refine ⟨⟨by omega, by omega⟩, ?_⟩
  have hfield : bytes w (front w s) = s.take w := by
    have htake : (s.take w).length = w := by
      rw [List.length_take]
      omega
    have hvalue := bytes_value (s.take w)
    rwa [htake] at hvalue
  rw [frame, hbody, hfield, List.append_assoc, ← List.drop_drop, List.take_append_drop,
    List.take_append_drop]

/-- A short string is shorter than the largest frame. -/
theorem Short.length_lt (h : Short w m s) (hm : 0 < m) : s.length < w + m := by
  rcases h with h | ⟨-, h1, h2⟩
  · omega
  · omega

theorem Bad.append (h : Bad w m s) (t : List UInt8) : Bad w m (s ++ t) := by
  obtain ⟨hlen, hfront⟩ := h
  refine ⟨by rw [List.length_append]; omega, ?_⟩
  rwa [front, List.take_append_of_le_length hlen]

theorem Bad.of_append {t : List UInt8} (h : Bad w m (s ++ t)) (hlen : w ≤ s.length) :
    Bad w m s := by
  obtain ⟨-, hfront⟩ := h
  rw [front, List.take_append_of_le_length hlen] at hfront
  exact ⟨hlen, hfront⟩

theorem short_nil (hw : 0 < w) : Short w m [] := Or.inl hw

/-! ### Splitting -/

namespace Splits

theorem nil (h : Bad w m s ∨ Short w m s) : Splits w m s [] s := ⟨rfl, fun _ hb => (by cases hb), h⟩

theorem cons (hb : Good m body) (h : Splits w m s bodies tail) :
    Splits w m (frame w body ++ s) (body :: bodies) tail where
  bytes := by rw [h.bytes, List.flatMap_cons, List.append_assoc]
  good := by
    intro b hmem
    rcases List.mem_cons.mp hmem with rfl | hmem
    · exact hb
    · exact h.good b hmem
  tail := h.tail

/-- Frames with nothing after them. -/
theorem of_frames (hw : 0 < w) (h : ∀ b ∈ bodies, Good m b) :
    Splits w m (bodies.flatMap (frame w)) bodies [] :=
  ⟨(List.append_nil _).symm, h, Or.inr (short_nil hw)⟩

/-- **A string splits in one way.** -/
theorem unique (hm : m < 256 ^ w) (h : Splits w m s bodies tail) (h' : Splits w m s bodies' tail') :
    bodies = bodies' ∧ tail = tail' := by
  obtain ⟨rfl, hgood, htail⟩ := h
  obtain ⟨heq, hgood', htail'⟩ := h'
  -- a tail does not start with a frame
  have hno : ∀ {t b r : List UInt8}, Bad w m t ∨ Short w m t → Good m b → t ≠ frame w b ++ r := by
    rintro t b r (ht | ht) hb rfl
    · exact not_bad_frame hm hb ht
    · exact not_short_frame hm hb ht
  induction bodies generalizing bodies' with
  | nil =>
      cases bodies' with
      | nil => exact ⟨rfl, heq⟩
      | cons b' bodies' =>
          rw [List.flatMap_cons, List.append_assoc] at heq
          exact absurd heq (hno htail (hgood' b' List.mem_cons_self))
  | cons b bodies ih =>
      have hb := hgood b List.mem_cons_self
      cases bodies' with
      | nil =>
          rw [List.flatMap_cons, List.append_assoc] at heq
          exact absurd heq.symm (hno htail' hb)
      | cons b' bodies' =>
          have hb' := hgood' b' List.mem_cons_self
          rw [List.flatMap_cons, List.flatMap_cons, List.append_assoc, List.append_assoc] at heq
          have hlen : b.length = b'.length := by
            rw [← front_frame hm hb, heq, front_frame hm hb']
          obtain ⟨hframe, hrest⟩ := List.append_inj heq (by simp [hlen])
          have hbody : b = b' := by
            unfold frame at hframe
            rw [hlen] at hframe
            exact List.append_cancel_left hframe
          obtain ⟨rfl, rfl⟩ := ih (fun x hx => hgood x (List.mem_cons_of_mem _ hx)) hrest
            fun x hx => hgood' x (List.mem_cons_of_mem _ hx)
          exact ⟨by rw [hbody], rfl⟩

theorem append_bad (h : Splits w m s bodies tail) (hbad : Bad w m tail) (t : List UInt8) :
    Splits w m (s ++ t) bodies (tail ++ t) where
  bytes := by rw [h.bytes, List.append_assoc]
  good := h.good
  tail := Or.inl (hbad.append t)

theorem append_short (h : Splits w m s bodies tail) (h' : Splits w m (tail ++ t) bodies' tail') :
    Splits w m (s ++ t) (bodies ++ bodies') tail' where
  bytes := by rw [h.bytes, List.append_assoc, h'.bytes, List.flatMap_append, List.append_assoc]
  good := by
    intro b hb
    rcases List.mem_append.mp hb with hb | hb
    · exact h.good b hb
    · exact h'.good b hb
  tail := h'.tail

end Splits

/-! ### The parser of a whole string -/

/-- The frames at the front, one after the other. -/
def splitLoop (w m : ℕ) : ℕ → List UInt8 → List (List UInt8) × List UInt8
  | 0, s => ([], s)
  | fuel + 1, s =>
      if Bad w m s ∨ Short w m s then ([], s)
      else
        let (bodies, tail) := splitLoop w m fuel (s.drop (w + front w s))
        ((s.drop w).take (front w s) :: bodies, tail)

/-- The bodies of the frames at the front of a string, and its tail. -/
def split (w m : ℕ) (s : List UInt8) : List (List UInt8) × List UInt8 := splitLoop w m s.length s

theorem splitLoop_splits (w m : ℕ) : ∀ (fuel : ℕ) (s : List UInt8), s.length ≤ fuel →
    Splits w m s (splitLoop w m fuel s).1 (splitLoop w m fuel s).2
  | 0, s, hfuel => by
      refine .nil (Classical.byContradiction fun hno => ?_)
      obtain ⟨hgood, heq⟩ := eq_frame_append (fun h => hno (Or.inl h)) fun h => hno (Or.inr h)
      have hlen := congrArg List.length heq
      rw [List.length_append, length_frame] at hlen
      have := hgood.1
      omega
  | fuel + 1, s, hfuel => by
      unfold splitLoop
      by_cases htail : Bad w m s ∨ Short w m s
      · rw [if_pos htail]
        exact .nil htail
      · rw [if_neg htail]
        obtain ⟨hgood, heq⟩ := eq_frame_append (fun h => htail (Or.inl h)) fun h => htail (Or.inr h)
        have hlen := congrArg List.length heq
        rw [List.length_append, length_frame] at hlen
        have hpos := hgood.1
        have hrest := splitLoop_splits w m fuel (s.drop (w + front w s)) (by omega)
        have hcons := hrest.cons hgood
        rwa [← heq] at hcons

/-- **Every string splits.** -/
theorem split_splits (w m : ℕ) (s : List UInt8) : Splits w m s (split w m s).1 (split w m s).2 :=
  splitLoop_splits w m _ s (Nat.le_refl _)

theorem exists_splits (w m : ℕ) (s : List UInt8) : ∃ bodies tail, Splits w m s bodies tail :=
  ⟨_, _, split_splits w m s⟩

/-- **Where a string of frames is cut**, the front keeps a short tail, which the rest completes. -/
theorem Splits.of_cut (hm : m < 256 ^ w) (hw : 0 < w) (hgood : ∀ b ∈ bodies, Good m b)
    (hcut : s ++ t = bodies.flatMap (frame w)) : ∃ (front back : List (List UInt8)) (tail : List UInt8),
      bodies = front ++ back ∧ Splits w m s front tail ∧ Short w m tail ∧
        tail ++ t = back.flatMap (frame w) := by
  obtain ⟨front, tail, hsplit⟩ := exists_splits w m s
  have hwhole := Splits.of_frames hw hgood
  rw [← hcut] at hwhole
  rcases hsplit.tail with hbad | hshort
  · -- a bad length would stay in front of the rest
    obtain ⟨-, htail⟩ := (hsplit.append_bad hbad t).unique hm hwhole
    have hlen := hbad.1
    rw [(List.append_eq_nil_iff.mp htail).1, List.length_nil] at hlen
    omega
  · obtain ⟨back, tail', hsplit'⟩ := exists_splits w m (tail ++ t)
    obtain ⟨hbodies, rfl⟩ := (hsplit.append_short hsplit').unique hm hwhole
    refine ⟨front, back, tail, hbodies.symm, hsplit, hshort, ?_⟩
    rw [hsplit'.bytes, List.append_nil]

/-- **A bad tail shows in a prefix** as soon as the prefix has its length field. -/
theorem Splits.bad_iff (hm : m < 256 ^ w) (h : Splits w m s bodies tail)
    (h' : Splits w m (s ++ t) bodies' tail') :
    Bad w m tail ↔ Bad w m tail' ∧ (s ++ t).length + w ≤ s.length + tail'.length := by
  constructor
  · intro hbad
    obtain ⟨-, rfl⟩ := h'.unique hm (h.append_bad hbad t)
    refine ⟨hbad.append t, ?_⟩
    have := hbad.1
    simp only [List.length_append]
    omega
  · rintro ⟨hbad, hlen⟩
    refine h.tail.resolve_right fun hshort => ?_
    -- the frames of the whole that the prefix does not have yet
    have hrest := split_splits w m (tail ++ t)
    generalize split w m (tail ++ t) = rest at hrest
    obtain ⟨-, rfl⟩ := h'.unique hm (h.append_short hrest)
    have hbytes := hrest.bytes
    have hlens := congrArg List.length hbytes
    have hs := congrArg List.length h.bytes
    simp only [List.length_append] at hlens hs hlen
    cases hmore : rest.1 with
    | nil =>
        rw [hmore, List.flatMap_nil, List.nil_append] at hbytes
        rw [← hbytes] at hbad
        rw [hmore, List.flatMap_nil, List.length_nil] at hlens
        exact not_bad_short (hbad.of_append (by omega)) hshort
    | cons b more =>
        rw [hmore, List.flatMap_cons, List.append_assoc] at hbytes
        rw [hmore, List.flatMap_cons, List.length_append] at hlens
        -- the next frame is in the prefix as a whole
        have hprefix : frame w b <+: tail ++ t := by
          rw [hbytes]
          exact List.prefix_append _ _
        have hframe : frame w b <+: tail := by
          apply List.prefix_of_prefix_length_le hprefix (List.prefix_append tail t)
          omega
        obtain ⟨r, rfl⟩ := hframe
        exact not_short_frame hm (hrest.good b (by rw [hmore]; exact List.mem_cons_self)) hshort

end Frames
