import LimitOrderBook.Delivery
import LimitOrderBook.Requests

/-! # The part of a stream that is executed

The bytes of a client are executed up to the first thing that is no client message: `Longest` is
the longest prefix that is made of encodings of client messages, and `Breaks` what may follow it to
break the connection.

However the bytes are cut into chunks, the bodies that reach `handle_frame` are those at the front
of the stream (`feedChunks_bodies`); executing them is executing the messages of the longest prefix
(`foldl_sink`).  Together: a connection whose outbox does not overflow executes exactly that prefix
(`executes_longest`). -/

namespace Lob

open Frames

/-! ### The longest prefix -/

namespace Request

/-- The bytes of a client message. -/
def wire (req : Request) : List UInt8 := req.message.wire

/-- It is a message that an encoder can be given. -/
def InRange (req : Request) : Prop := req.message.InRange

end Request

/-- The stream starts with the encodings of `reqs`, and with no longer list of messages. -/
structure Longest (stream : List UInt8) (reqs : List Request) (rest : List UInt8) : Prop where
  split : stream = reqs.flatMap Request.wire ++ rest
  inRange : ∀ req ∈ reqs, req.InRange
  longest : ∀ reqs' rest', (∀ req ∈ reqs', req.InRange) →
    stream = reqs'.flatMap Request.wire ++ rest' → reqs' <+: reqs

/-- A complete frame that is no client message, or a length that no frame has. -/
def Breaks (rest : List UInt8) : Prop :=
  (∃ body rest', rest = frame kHeaderLen body ++ rest' ∧ Good kMaxFrameLen body ∧
    ∀ req : Request, req.InRange → body ≠ req.message.body) ∨
  Bad kHeaderLen kMaxFrameLen rest

/-- The messages at the front of a list of bodies. -/
theorem exists_requests (bodies : List (List UInt8)) : ∃ (reqs : List Request) (more : List (List UInt8)),
    bodies = reqs.map (fun req => req.message.body) ++ more ∧ (∀ req ∈ reqs, req.InRange) ∧
      ∀ body ∈ more.head?, decodeRequest body = none := by
  induction bodies with
  | nil => exact ⟨[], [], rfl, fun _ h => (nomatch h), fun _ h => (nomatch h)⟩
  | cons body bodies ih =>
      cases hreq : decodeRequest body with
      | none =>
          refine ⟨[], body :: bodies, rfl, fun _ h => (nomatch h), fun b hb => ?_⟩
          obtain rfl : body = b := by simpa using hb
          exact hreq
      | some req =>
          obtain ⟨reqs, more, hsplit, hrange, hmore⟩ := ih
          obtain ⟨hin, rfl⟩ := Request.decodeRequest_eq_some_iff.mp hreq
          refine ⟨req :: reqs, more, by rw [hsplit]; rfl, fun r hr => ?_, hmore⟩
          rcases List.mem_cons.mp hr with rfl | hr
          · exact hin
          · exact hrange r hr

section longest

variable {stream tail : List UInt8} {bodies more : List (List UInt8)} {reqs : List Request}

theorem flatMap_wire (reqs : List Request) : reqs.flatMap Request.wire =
    (reqs.map fun req => req.message.body).flatMap (frame kHeaderLen) := by
  rw [List.flatMap_map]
  rfl

/-- A message is decoded as what was sent. -/
theorem decode_body {req : Request} (h : req.InRange) :
    decodeRequest req.message.body = some req :=
  Request.decodeRequest_eq_some_iff.mpr ⟨h, rfl⟩

/-- Messages at the front of bodies are a prefix of those found there. -/
theorem prefix_of_bodies (hmore : ∀ body ∈ more.head?, decodeRequest body = none) :
    ∀ (reqs reqs' : List Request) (more' : List (List UInt8)), (∀ req ∈ reqs, req.InRange) →
      (∀ req ∈ reqs', req.InRange) →
      reqs.map (fun req => req.message.body) ++ more =
        reqs'.map (fun req => req.message.body) ++ more' → reqs' <+: reqs
  | _, [], _, _, _, _ => List.nil_prefix
  | [], req' :: reqs', more', _, hrange', heq => by
      rw [List.map_nil, List.nil_append] at heq
      have hnone := hmore req'.message.body (by rw [heq]; rfl)
      rw [decode_body (hrange' req' List.mem_cons_self)] at hnone
      cases hnone
  | req :: reqs, req' :: reqs', more', hrange, hrange', heq => by
      rw [List.map_cons, List.map_cons, List.cons_append, List.cons_append] at heq
      obtain ⟨hbody, hrest⟩ := List.cons.inj heq
      have hdecode := decode_body (hrange req List.mem_cons_self)
      rw [hbody, decode_body (hrange' req' List.mem_cons_self)] at hdecode
      obtain rfl := Option.some.inj hdecode
      refine List.cons_prefix_cons.mpr ⟨rfl, prefix_of_bodies hmore reqs reqs' more' ?_ ?_ hrest⟩
      · exact fun r hr => hrange r (List.mem_cons_of_mem _ hr)
      · exact fun r hr => hrange' r (List.mem_cons_of_mem _ hr)

/-- The messages at the front of the bodies of a stream are its longest prefix. -/
theorem longest_of_bodies (hsplit : Deframes stream bodies tail)
    (hbodies : bodies = reqs.map (fun req => req.message.body) ++ more)
    (hrange : ∀ req ∈ reqs, req.InRange)
    (hmore : ∀ body ∈ more.head?, decodeRequest body = none) :
    Longest stream reqs (more.flatMap (frame kHeaderLen) ++ tail) := by
  refine ⟨?_, hrange, fun reqs' rest' hrange' hstream => ?_⟩
  · rw [hsplit.bytes, hbodies, List.flatMap_append, flatMap_wire, List.append_assoc]
  · obtain ⟨bodies', tail', hsplit'⟩ := exists_splits kHeaderLen kMaxFrameLen rest'
    have hwhole : Deframes stream (reqs'.map (fun req => req.message.body) ++ bodies') tail' := by
      refine ⟨?_, fun b hb => ?_, hsplit'.tail⟩
      · rw [hstream, hsplit'.bytes, List.flatMap_append, flatMap_wire, List.append_assoc]
      · rcases List.mem_append.mp hb with hb | hb
        · obtain ⟨req, -, rfl⟩ := List.mem_map.mp hb
          exact req.message.good_body
        · exact hsplit'.good b hb
    have hunique := (hsplit.unique (by decide) hwhole).1
    exact prefix_of_bodies hmore reqs reqs' bodies' hrange hrange' (hbodies.symm.trans hunique)

theorem Longest.unique {rest rest' : List UInt8} {reqs' : List Request}
    (h : Longest stream reqs rest) (h' : Longest stream reqs' rest') : reqs = reqs' :=
  (h'.longest reqs rest h.inRange h.split).eq_of_length_le
    (h.longest reqs' rest' h'.inRange h'.split).length_le

/-- What follows the messages breaks the connection if there is another body, or a bad length. -/
theorem breaks_iff (hsplit : Deframes stream bodies tail)
    (hbodies : bodies = reqs.map (fun req => req.message.body) ++ more)
    (hmore : ∀ body ∈ more.head?, decodeRequest body = none) :
    Breaks (more.flatMap (frame kHeaderLen) ++ tail) ↔
      more ≠ [] ∨ Bad kHeaderLen kMaxFrameLen tail := by
  cases more with
  | nil =>
      have htail : (([] : List (List UInt8)).flatMap (frame kHeaderLen) ++ tail) = tail := rfl
      rw [htail]
      constructor
      · rintro (⟨body, rest', hframe, hgood, -⟩ | hbad)
        · -- a tail does not start with a frame
          rcases hsplit.tail with hbad | hshort
          · exact Or.inr hbad
          · rw [hframe] at hshort
            exact absurd hshort (not_short_frame (by decide) hgood)
        · exact Or.inr hbad
      · rintro (hne | hbad)
        · exact absurd rfl hne
        · exact Or.inr hbad
  | cons body more =>
      refine iff_of_true (Or.inl ⟨body, more.flatMap (frame kHeaderLen) ++ tail, ?_, ?_, ?_⟩)
        (Or.inl (List.cons_ne_nil _ _))
      · rw [List.flatMap_cons, List.append_assoc]
      · refine hsplit.good body ?_
        rw [hbodies]
        exact List.mem_append_right _ List.mem_cons_self
      · rintro req hrange rfl
        have hnone := hmore req.message.body rfl
        rw [decode_body hrange] at hnone
        cases hnone

end longest

/-! ### Executing messages -/

namespace Gateway

open Connection

/-- The body of a frame is handed to `handle_frame`. -/
def sink (owner : Owner) (g : Gateway OrderBook) (body : List UInt8) : Gateway OrderBook :=
  (handleFrame OrderBook.engine g owner body).1

/-- Messages executed one after another. -/
def executeAll (owner : Owner) (g : Gateway OrderBook) (reqs : List Request) :
    Gateway OrderBook := reqs.foldl (fun g req => g.execute OrderBook.engine owner req) g

/-- The reports owed for them. -/
def owedAll (owner : Owner) : Gateway OrderBook → List Request → List ExecReportMsg
  | _, [] => []
  | g, req :: reqs =>
      g.owed OrderBook.engine owner req ++
        owedAll owner (g.execute OrderBook.engine owner req) reqs

/-- The connection of `owner` is marked dead. -/
def markDead (g : Gateway OrderBook) (owner : Owner) : Gateway OrderBook :=
  g.onConn owner fun c => { c with dead := true }

variable {g : Gateway OrderBook} {owner : Owner} {c : Config} {conn : Connection}

theorem foldl_sink_of_dead (h : g.isDead owner = true) (bodies : List (List UInt8)) :
    bodies.foldl (sink owner) g = g := by
  obtain ⟨conn, hfind, hdead⟩ := (Option.any_eq_true _ _).mp h
  have hone : ∀ body, sink owner g body = g := by
    intro body
    simp only [sink, handleFrame, hfind, hdead, if_true]
  induction bodies with
  | nil => rfl
  | cons body bodies ih => rw [List.foldl_cons, hone, ih]

theorem markDead_of_dead (h : g.isDead owner = true) : g.markDead owner = g := by
  obtain ⟨conn, hfind, hdead⟩ := (Option.any_eq_true _ _).mp h
  obtain ⟨pre, post, hfound⟩ := found_of_find? hfind
  have hconn : { conn with dead := true } = conn := by rw [← hdead]
  have hconns : (g.markDead owner).conns = pre ++ { conn with dead := true } :: post :=
    hfound.onFirst _
  rw [hconn, ← hfound.split] at hconns
  calc
    g.markDead owner = { g with conns := (g.markDead owner).conns } := rfl
    _ = g := by rw [hconns]

theorem isDead_markDead (h : g.conns.find? (isOf owner) = some conn) :
    (g.markDead owner).isDead owner = true := by
  obtain ⟨pre, post, hfound⟩ := found_of_find? h
  have hconns : (g.markDead owner).conns = pre ++ { conn with dead := true } :: post :=
    hfound.onFirst _
  have hdead := hfound.replace (show { conn with dead := true }.owner = conn.owner from rfl)
  have hfind := hdead.find?
  rw [isDead, hconns, hfind]
  rfl

/-- One message: the sender is sent what it is owed. -/
theorem sink_message (h : Reached c g) {pre post : List Connection}
    (hfound : Found owner g.conns pre conn post) (hlive : conn.dead = false) {req : Request}
    (hrange : req.InRange) (halone : conn.room < (g.owed OrderBook.engine owner req).length →
      ∀ x ∈ post, x.owner ≠ owner) :
    sink owner g req.message.body = g.execute OrderBook.engine owner req ∧
      Reached c (g.execute OrderBook.engine owner req) ∧
      Found owner (g.execute OrderBook.engine owner req).conns pre
        (conn.sendAll (g.owed OrderBook.engine owner req)) post := by
  have hrequest : g.request? owner req.message.body = some req := by
    simp [request?, hfound.find?, hlive, decode_body hrange]
  have hframe := handleFrame_of_request OrderBook.engine hrequest
  have hsink : sink owner g req.message.body = g.execute OrderBook.engine owner req :=
    congrArg Prod.fst hframe
  have hreached := h.step (.frame owner req.message.body)
  have hfound' := hfound.replace (owner_sendAll conn (g.owed OrderBook.engine owner req))
  rw [← h.conns_execute hfound hlive req halone] at hfound'
  refine ⟨hsink, ?_, hfound'⟩
  rw [← hsink]
  exact hreached

/-- **Messages whose reports have room are executed one after another**, and the connection
lives. -/
theorem foldl_sink (reqs : List Request) (hrange : ∀ req ∈ reqs, req.InRange) (h : Reached c g)
    (hfind : g.conns.find? (isOf owner) = some conn) (hlive : conn.dead = false)
    (hroom : conn.outbox.length + 16 * (owedAll owner g reqs).length ≤ kMaxOutbox) :
    (reqs.map fun req => req.message.body).foldl (sink owner) g = executeAll owner g reqs ∧
      (executeAll owner g reqs).conns.find? (isOf owner) =
        some (conn.sendAll (owedAll owner g reqs)) ∧
      (conn.sendAll (owedAll owner g reqs)).dead = false := by
  induction reqs generalizing g conn with
  | nil => exact ⟨rfl, hfind, hlive⟩
  | cons req reqs ih =>
      rw [owedAll, List.length_append] at hroom
      obtain ⟨pre, post, hfound⟩ := found_of_find? hfind
      have hfits : (g.owed OrderBook.engine owner req).length ≤ conn.room := by
        unfold room
        omega
      obtain ⟨hsink, hreached, hfound'⟩ := sink_message h hfound hlive
        (hrange req List.mem_cons_self) fun hlt => absurd hlt (by omega)
      have hsent := sendAll_eq conn (g.owed OrderBook.engine owner req)
      rw [List.take_of_length_le hfits] at hsent
      have hlive' : (conn.sendAll (g.owed OrderBook.engine owner req)).dead = false := by
        rw [hsent, hlive]
        simpa using hfits
      have hlen : (conn.sendAll (g.owed OrderBook.engine owner req)).outbox.length =
          conn.outbox.length + 16 * (g.owed OrderBook.engine owner req).length := by
        rw [hsent, List.length_append, length_flatMap_bytes]
      obtain ⟨hall, hfind', hdead⟩ := ih (fun r hr => hrange r (List.mem_cons_of_mem _ hr)) hreached
        hfound'.find? hlive' (by rw [hlen]; omega)
      rw [List.map_cons, List.foldl_cons, hsink, owedAll, sendAll_append]
      exact ⟨hall, hfind', hdead⟩

/-- The first body that is no client message kills the connection, and nothing more is executed. -/
theorem foldl_sink_bad {body : List UInt8} (hfind : g.conns.find? (isOf owner) = some conn)
    (hlive : conn.dead = false) (hbad : decodeRequest body = none) (bodies : List (List UInt8)) :
    (body :: bodies).foldl (sink owner) g = g.markDead owner := by
  have hone : sink owner g body = g.markDead owner := by
    simp only [sink, handleFrame, hfind, hlive, hbad, Bool.false_eq_true, if_false]
    rfl
  rw [List.foldl_cons, hone, foldl_sink_of_dead (isDead_markDead hfind)]

end Gateway

/-! ### Chunks -/

namespace PollLoop

open Gateway (sink markDead executeAll owedAll)

variable {s : PollLoop} {owner : Owner}

theorem foldl_act (bodies : List (List UInt8)) (s : PollLoop) :
    (bodies.foldl (fun s body => s.act (.frame owner body)) s).gateway =
        bodies.foldl (sink owner) s.gateway ∧
      (bodies.foldl (fun s body => s.act (.frame owner body)) s).frames = s.frames := by
  induction bodies generalizing s with
  | nil => exact ⟨rfl, rfl⟩
  | cons body bodies ih => exact ih _

/-- One chunk, in terms of what `feed` returns. -/
theorem feedChunk_eq (s : PollLoop) (owner : Owner) (chunk : List UInt8) :
    s.feedChunk owner chunk =
      let x := (s.frames owner).feed (fun s body => s.act (.frame owner body)) chunk s
      if x.2.1 && !x.2.2.isDead owner then (true, x.2.2.setFrames owner x.1)
      else (false, (x.2.2.setFrames owner x.1).act (.hangup owner)) := rfl

theorem feedChunks_cons (owner : Owner) (chunk : List UInt8) (chunks : List (List UInt8))
    (s : PollLoop) : feedChunks owner (chunk :: chunks) s =
      if (s.feedChunk owner chunk).1 then feedChunks owner chunks (s.feedChunk owner chunk).2
      else (s.feedChunk owner chunk).2 := rfl

/-- **However a stream is cut, `handle_frame` sees the bodies at its front.** -/
theorem feedChunks_bodies (owner : Owner) : ∀ (chunks : List (List UInt8)) (buf : List UInt8)
    (s : PollLoop), s.frames owner = ⟨buf, false⟩ → Short kHeaderLen kMaxFrameLen buf →
    ∃ bodies tail, Deframes (buf ++ chunks.flatten) bodies tail ∧
      (¬ Bad kHeaderLen kMaxFrameLen tail →
        (feedChunks owner chunks s).gateway = bodies.foldl (sink owner) s.gateway) ∧
      (Bad kHeaderLen kMaxFrameLen tail →
        (feedChunks owner chunks s).gateway =
          markDead (bodies.foldl (sink owner) s.gateway) owner) ∧
      (¬ Bad kHeaderLen kMaxFrameLen tail →
        Gateway.isDead (bodies.foldl (sink owner) s.gateway) owner = false →
        (feedChunks owner chunks s).frames owner = ⟨tail, false⟩)
  | [], buf, s, hbuf, hshort => by
      refine ⟨[], buf, ?_, fun _ => rfl, fun hbad => absurd hshort (not_bad_short hbad),
        fun _ _ => hbuf⟩
      rw [List.flatten_nil, List.append_nil]
      exact .nil (Or.inr hshort)
  | chunk :: chunks, buf, s, hbuf, hshort => by
      obtain ⟨bodies, tail, hfed⟩ := FrameBuffer.feed_fed
        (fun s body => s.act (.frame owner body)) hshort chunk s
      obtain ⟨hgateway, hframes⟩ := @foldl_act owner bodies s
      have hchunk := feedChunk_eq s owner chunk
      rw [hbuf] at hchunk
      simp only [hfed.sunk, isDead, hgateway] at hchunk
      rw [List.flatten_cons, ← List.append_assoc, feedChunks_cons, hchunk]
      rcases hfed.outcome with ⟨hok, htail, hfb⟩ | ⟨hok, htail, -⟩
      · cases hdead : Gateway.isDead (bodies.foldl (sink owner) s.gateway) owner with
        | false =>
            -- the next chunk
            obtain ⟨bodies', tail', hsplit, hgood, hbad, hkeep⟩ := feedChunks_bodies owner chunks tail
              ((bodies.foldl (fun s body => s.act (.frame owner body)) s).setFrames owner
                ⟨tail, false⟩) (Function.update_self ..) htail
            have hgateway' : ((bodies.foldl (fun s body => s.act (.frame owner body)) s).setFrames
                owner ⟨tail, false⟩).gateway = bodies.foldl (sink owner) s.gateway := hgateway
            rw [hgateway', ← List.foldl_append] at hgood hbad hkeep
            simp only [hok, Bool.not_false, Bool.and_self, if_true, hfb]
            exact ⟨bodies ++ bodies', tail', hfed.splits.append_short hsplit, hgood, hbad, hkeep⟩
        | true =>
            -- nothing more is fed, and nothing more would be executed
            obtain ⟨bodies', tail', hsplit⟩ := exists_splits kHeaderLen kMaxFrameLen
              (tail ++ chunks.flatten)
            have hrest : (bodies ++ bodies').foldl (sink owner) s.gateway =
                bodies.foldl (sink owner) s.gateway := by
              rw [List.foldl_append, Gateway.foldl_sink_of_dead hdead]
            have hstop : ((bodies.foldl (fun s body => s.act (.frame owner body)) s).setFrames owner
                ⟨tail, false⟩ |>.act (.hangup owner)).gateway =
                markDead (bodies.foldl (sink owner) s.gateway) owner := by
              rw [← hgateway]
              rfl
            simp only [hok, Bool.not_true, Bool.and_false, Bool.false_eq_true, if_false, hfb, hstop,
              Gateway.markDead_of_dead hdead]
            refine ⟨bodies ++ bodies', tail', hfed.splits.append_short hsplit, ?_, ?_, ?_⟩
            · exact fun _ => hrest.symm
            · intro _
              rw [hrest, Gateway.markDead_of_dead hdead]
            · intro _ hlive
              rw [hrest, hdead] at hlive
              cases hlive
      · refine ⟨bodies, tail ++ chunks.flatten, hfed.splits.append_bad htail _,
          fun hgood => absurd (htail.append _) hgood, fun _ => ?_,
          fun hgood => absurd (htail.append _) hgood⟩
        simp only [hok, Bool.false_and, Bool.false_eq_true, if_false]
        rw [← hgateway]
        rfl

/-- Chunks that `recv` returns are fed one after another. -/
theorem readLoop_got (owner : Owner) (chunks : List (List UInt8)) (h : ∀ chunk ∈ chunks, chunk ≠ [])
    (s : PollLoop) : readLoop owner (chunks.map .got) s = feedChunks owner chunks s := by
  induction chunks generalizing s with
  | nil => rfl
  | cons chunk chunks ih =>
      have hne : chunk ≠ [] := h chunk List.mem_cons_self
      rw [List.map_cons, feedChunks_cons, readLoop, if_neg hne]
      dsimp only
      rw [ih fun c hc => h c (List.mem_cons_of_mem _ hc)]

/-- **Only the longest well-formed prefix of a client's bytes is executed**, however they are cut
into chunks, and the connection is dead afterwards exactly if the next thing breaks it. -/
theorem executes_longest (p : Params) (hp : p.Valid) (inputs : List Gateway.Input) (s : PollLoop)
    (owner : Owner) (conn : Connection) (hs : s.gateway = Gateway.run p inputs)
    (hfind : s.gateway.conns.find? (Connection.isOf owner) = some conn) (hlive : conn.dead = false)
    (hfresh : s.frames owner = {}) (stream : List UInt8) :
    ∃ reqs rest, Longest stream reqs rest ∧
      ((conn.outbox ++ (owedAll owner s.gateway reqs).flatMap ExecReportMsg.bytes).length ≤
          kMaxOutbox →
        ∀ chunks : List (List UInt8), chunks.flatten = stream →
          let g := executeAll owner s.gateway reqs
          let g' := (feedChunks owner chunks s).gateway
          (¬ Breaks rest → g' = g) ∧ (Breaks rest → g' = g.markDead owner) ∧
            (g'.isDead owner = true ↔ Breaks rest) ∧
            ((∀ chunk ∈ chunks, chunk ≠ []) →
              readLoop owner (chunks.map .got) s = feedChunks owner chunks s)) := by
  obtain ⟨bodies, tail, hsplit⟩ := exists_splits kHeaderLen kMaxFrameLen stream
  obtain ⟨reqs, more, hbodies, hrange, hmore⟩ := exists_requests bodies
  refine ⟨reqs, _, longest_of_bodies hsplit hbodies hrange hmore, fun hroom chunks hchunks => ?_⟩
  have hbreaks := breaks_iff hsplit hbodies hmore
  have hreached : Gateway.Reached p.config s.gateway := by
    rw [hs]
    exact Gateway.reached_run hp inputs
  rw [List.length_append, Connection.length_flatMap_bytes] at hroom
  obtain ⟨hall, hfind', hlive'⟩ := Gateway.foldl_sink reqs hrange hreached hfind hlive hroom
  obtain ⟨bodies', tail', hsplit', hgood, hbad, -⟩ :=
    feedChunks_bodies owner chunks [] s hfresh (short_nil (by decide))
  rw [List.nil_append, hchunks] at hsplit'
  obtain ⟨rfl, rfl⟩ := hsplit'.unique (by decide) hsplit
  rw [hbodies, List.foldl_append, hall] at hgood hbad
  have hdead := Gateway.isDead_markDead hfind'
  -- what the bodies behind the prefix do
  have hresult : (¬ Breaks (more.flatMap (frame kHeaderLen) ++ tail') →
        (feedChunks owner chunks s).gateway = executeAll owner s.gateway reqs) ∧
      (Breaks (more.flatMap (frame kHeaderLen) ++ tail') →
        (feedChunks owner chunks s).gateway = markDead (executeAll owner s.gateway reqs) owner) := by
    rw [hbreaks]
    cases more with
    | nil => simpa using And.intro hgood hbad
    | cons body more =>
        rw [Gateway.foldl_sink_bad hfind' hlive' (hmore body rfl)] at hgood hbad
        rw [Gateway.markDead_of_dead hdead] at hbad
        refine ⟨fun hno => absurd (Or.inl (List.cons_ne_nil _ _)) hno, fun _ => ?_⟩
        by_cases htail : Bad kHeaderLen kMaxFrameLen tail'
        · exact hbad htail
        · exact hgood htail
  refine ⟨hresult.1, hresult.2, ⟨fun hd => ?_, fun hb => ?_⟩, fun hne => readLoop_got owner chunks hne s⟩
  · by_contra hno
    rw [hresult.1 hno, Gateway.isDead, hfind', Option.any_some, hlive'] at hd
    cases hd
  · rw [hresult.2 hb]
    exact hdead

/-- A new order and a length that no frame has, fed to a fresh loop. -/
theorem executes_longest_small :
    let p : Params := { stp := .none, poolCapacity := 1, bandHi := 9, idMapSlots := 4 }
    let s : PollLoop := { gateway := Gateway.run p [.accept 1] }
    ∃ reqs rest, Longest ((NewOrderMsg.encode 64 ⟨7, 5, 3, .ask, .gtc⟩).getD [] ++ [255, 255, 0])
        reqs rest ∧
      ((([] : List UInt8) ++ (owedAll 1 s.gateway reqs).flatMap ExecReportMsg.bytes).length ≤
          kMaxOutbox →
        ∀ chunks : List (List UInt8),
          chunks.flatten = (NewOrderMsg.encode 64 ⟨7, 5, 3, .ask, .gtc⟩).getD [] ++ [255, 255, 0] →
          let g := executeAll 1 s.gateway reqs
          let g' := (feedChunks 1 chunks s).gateway
          (¬ Breaks rest → g' = g) ∧ (Breaks rest → g' = g.markDead 1) ∧
            (g'.isDead 1 = true ↔ Breaks rest) ∧
            ((∀ chunk ∈ chunks, chunk ≠ []) →
              readLoop 1 (chunks.map .got) s = feedChunks 1 chunks s)) :=
  executes_longest _ ⟨by decide, by decide, by decide, by decide⟩ [.accept 1]
    { gateway := Gateway.run { stp := .none, poolCapacity := 1, bandHi := 9, idMapSlots := 4 }
        [.accept 1] } 1 { owner := 1 } rfl rfl rfl rfl _

end PollLoop

end Lob
