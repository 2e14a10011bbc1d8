import LimitOrderBook.PollLoop
import LimitOrderBook.Reports

/-! # Delivery of reports

Over a run of the gateway `owedTo` collects the reports that the executed frames of a client owe
it.  What was ever appended to the outbox of a connection is a prefix of the reports owed to its
owner, and all of them as long as the connection lives (`Connection.Served`).

An action changes each connection on its own (`Gateway.effect`, `conns_step`).  One change keeps
`Served` (`served_effect`), hence every run of distinct owners does (`served_run`), and with it
every point of every run of the poll loop (`delivered_run`). -/

namespace Lob

namespace Connection

/-- The bytes ever appended to the outbox. -/
def appended (c : Connection) : List UInt8 := c.sent ++ c.outbox

/-- The connection was sent whole reports, from the first one owed on. -/
structure Served (c : Connection) (owed : List ExecReportMsg) : Prop where
  delivered : ∃ ms, ms <+: owed ∧ c.appended = ms.flatMap ExecReportMsg.bytes ∧
    (c.dead = false → ms = owed)
  capped : c.outbox.length ≤ kMaxOutbox

/-- Where no two connections share an owner. -/
theorem onFirst_eq_map {conns : List Connection} (hnd : (conns.map Connection.owner).Nodup)
    (owner : Owner) (f : Connection → Connection) :
    onFirst (isOf owner) f conns = conns.map fun c => if c.owner = owner then f c else c := by
  induction conns with
  | nil => rfl
  | cons c conns ih =>
      rw [List.map_cons, List.nodup_cons] at hnd
      rw [onFirst, List.map_cons]
      by_cases hc : c.owner = owner
      · have hrest : (conns.map fun c => if c.owner = owner then f c else c) = conns := by
          refine (List.map_congr_left fun x hx => if_neg fun he => ?_).trans (List.map_id conns)
          exact hnd.1 (List.mem_map.mpr ⟨x, hx, he.trans hc.symm⟩)
        rw [if_pos (show isOf owner c = true from decide_eq_true hc), if_pos hc, hrest]
      · rw [if_neg (by simp [isOf, hc]), if_neg hc, ih hnd.2]

theorem find?_of_mem {conns : List Connection} (hnd : (conns.map Connection.owner).Nodup)
    {c : Connection} (hc : c ∈ conns) : conns.find? (isOf c.owner) = some c := by
  induction conns with
  | nil => cases hc
  | cons x conns ih =>
      rw [List.map_cons, List.nodup_cons] at hnd
      rcases List.mem_cons.mp hc with rfl | hc
      · exact List.find?_cons_of_pos (decide_eq_true rfl)
      · have hne : x.owner ≠ c.owner := fun he => hnd.1 (he ▸ List.mem_map_of_mem hc)
        rw [List.find?_cons_of_neg (by simp [isOf, hne]), ih hnd.2 hc]

/-- The owner has no other connection. -/
theorem Found.alone {conns pre post : List Connection} {c : Connection} {owner : Owner}
    (h : Found owner conns pre c post) (hnd : (conns.map Connection.owner).Nodup) :
    ∀ x ∈ post, x.owner ≠ owner := by
  intro x hx he
  rw [h.split, List.map_append, List.map_cons] at hnd
  refine (List.nodup_cons.mp (List.nodup_append.mp hnd).2.1).1 ?_
  rw [h.owner_eq, ← he]
  exact List.mem_map_of_mem hx

namespace Served

variable {c : Connection} {owed : List ExecReportMsg}

theorem sendAll (h : c.Served owed) (hlive : c.dead = false) (ms : List ExecReportMsg) :
    (c.sendAll ms).Served (owed ++ ms) := by
  obtain ⟨⟨ms₀, -, hbytes, hall⟩, hcap⟩ := h
  obtain rfl := hall hlive
  rw [sendAll_eq]
  refine ⟨⟨ms₀ ++ ms.take c.room, ?_, ?_, fun hlive' => ?_⟩, ?_⟩
  · exact (List.prefix_append_right_inj ms₀).mpr (List.take_prefix _ _)
  · rw [List.flatMap_append, ← hbytes, appended, appended, List.append_assoc]
  · have hroom : ms.length ≤ c.room := by
      rw [hlive, Bool.false_or, decide_eq_false_iff_not] at hlive'
      omega
    rw [List.take_of_length_le hroom]
  · have htake : (ms.take c.room).length ≤ c.room := List.length_take_le _ _
    simp only [List.length_append, length_flatMap_bytes]
    unfold room at htake ⊢
    omega

theorem dead (h : c.Served owed) : ({ c with dead := true } : Connection).Served owed := by
  obtain ⟨⟨ms, hpre, hbytes, -⟩, hcap⟩ := h
  exact ⟨⟨ms, hpre, hbytes, fun hlive => nomatch hlive⟩, hcap⟩

theorem appended_flush (c : Connection) (n : ℕ) : (c.flush n).appended = c.appended := by
  simp only [appended, flush, List.append_assoc, List.take_append_drop]

theorem flush (h : c.Served owed) (n : ℕ) : (c.flush n).Served owed := by
  obtain ⟨⟨ms, hpre, hbytes, hall⟩, hcap⟩ := h
  refine ⟨⟨ms, hpre, (appended_flush c n).trans hbytes, hall⟩, ?_⟩
  simp only [Connection.flush, List.length_drop]
  omega

theorem new (owner : Owner) : ({ owner := owner } : Connection).Served [] :=
  ⟨⟨[], List.prefix_rfl, rfl, fun _ => rfl⟩, Nat.zero_le _⟩

end Served

end Connection

namespace Gateway

open Connection

/-! ### One action -/

section effect

variable (g : Gateway OrderBook)

/-- What an action owes to a client. -/
def owedBy (owner : Owner) : Input → List ExecReportMsg
  | .frame o body =>
      if o = owner then
        match g.request? o body with
        | some req => g.owed OrderBook.engine o req
        | none => []
      else []
  | _ => []

/-- What an action does to one connection. -/
def effect : Input → Connection → Connection
  | .frame o body, c =>
      if c.owner = o ∧ c.dead = false then
        match decodeRequest body with
        | some req => c.sendAll (g.owed OrderBook.engine o req)
        | none => { c with dead := true }
      else c
  | .flush o n, c => if c.owner = o then c.flush n else c
  | .hangup o, c => if c.owner = o then { c with dead := true } else c
  | _, c => c

variable {g}

@[simp] theorem owner_effect (i : Input) (c : Connection) : (g.effect i c).owner = c.owner := by
  cases i <;> simp only [effect]
  case frame o body =>
      split_ifs
      · cases decodeRequest body with
        | none => rfl
        | some req => exact owner_sendAll c _
      · rfl
  all_goals split_ifs <;> rfl

theorem conns_handleFrame {c : Config} (h : Reached c g) (hnd : (g.conns.map Connection.owner).Nodup)
    (owner : Owner) (body : List UInt8) :
    (handleFrame OrderBook.engine g owner body).1.conns =
      g.conns.map (g.effect (.frame owner body)) := by
  cases hfind : g.conns.find? (isOf owner) with
  | none =>
      have hself : g.conns.map (g.effect (.frame owner body)) = g.conns := by
        refine (List.map_congr_left fun x hx => if_neg fun hx' => ?_).trans (List.map_id _)
        exact List.find?_eq_none.mp hfind x hx (decide_eq_true hx'.1)
      rw [hself]
      simp only [handleFrame, hfind]
  | some c =>
      obtain ⟨pre, post, hfound⟩ := found_of_find? hfind
      have hpost := hfound.alone hnd
      -- the other connections stay as they are
      have hsplit : g.conns.map (g.effect (.frame owner body)) =
          pre ++ g.effect (.frame owner body) c :: post := by
        have hother : ∀ {l : List Connection}, (∀ x ∈ l, x.owner ≠ owner) →
            l.map (g.effect (.frame owner body)) = l := fun hl =>
          (List.map_congr_left fun x hx => if_neg fun hx' => hl x hx hx'.1).trans (List.map_id _)
        rw [hfound.split, List.map_append, List.map_cons, hother hfound.before, hother hpost]
      rw [hsplit]
      by_cases hdead : c.dead = true
      · simp only [handleFrame, hfind, hdead, if_true, effect, Bool.true_eq_false, and_false,
          if_false]
        exact hfound.split
      · have hlive : c.dead = false := by simpa using hdead
        have hof : c.owner = owner ∧ c.dead = false := ⟨hfound.owner_eq, hlive⟩
        simp only [effect, if_pos hof]
        cases hreq : decodeRequest body with
        | none =>
            simp only [handleFrame, hfind, if_neg hdead, hreq]
            exact hfound.onFirst _
        | some req =>
            have hrequest : g.request? owner body = some req := by
              simp [request?, hfind, hlive, hreq]
            rw [handleFrame_of_request _ hrequest]
            exact h.conns_execute hfound hlive req fun _ => hpost

/-- **An action changes each connection on its own**; only `accept` brings one and only `erase`
takes one. -/
theorem conns_step {c : Config} (h : Reached c g) (hnd : (g.conns.map Connection.owner).Nodup)
    (i : Input) :
    (step OrderBook.engine g i).1.conns =
      match i with
      | .accept owner => g.conns ++ [{ owner := owner }]
      | .erase owner => g.conns.eraseP (isOf owner)
      | i => g.conns.map (g.effect i) := by
  cases i with
  | accept owner => rfl
  | frame owner body => exact conns_handleFrame h hnd owner body
  | flush owner n => exact onFirst_eq_map hnd owner _
  | hangup owner => exact onFirst_eq_map hnd owner _
  | disconnect owner =>
      have hself : g.conns.map (g.effect (.disconnect owner)) = g.conns := List.map_id _
      refine Eq.trans ?_ hself.symm
      simp only [step, cancelOnDisconnect]
      split_ifs
      · exact conns_cancelAll _ g _
      · exact conns_cancelAll _ g _
  | erase owner => rfl

/-- A connection of the next state is a new one, or one that the action has changed. -/
theorem mem_conns_step {c : Config} (h : Reached c g)
    (hnd : (g.conns.map Connection.owner).Nodup) {i : Input} {conn : Connection}
    (hconn : conn ∈ (step OrderBook.engine g i).1.conns) :
    (∃ conn₀ ∈ g.conns, conn = g.effect i conn₀) ∨
      ∃ owner, i = .accept owner ∧ conn = { owner := owner } := by
  rw [conns_step h hnd] at hconn
  cases i with
  | accept owner =>
      rcases List.mem_append.mp hconn with hmem | hmem
      · exact Or.inl ⟨conn, hmem, rfl⟩
      · exact Or.inr ⟨owner, rfl, List.mem_singleton.mp hmem⟩
  | erase owner => exact Or.inl ⟨conn, List.mem_of_mem_eraseP hconn, rfl⟩
  | _ =>
      obtain ⟨conn₀, hmem, rfl⟩ := List.mem_map.mp hconn
      exact Or.inl ⟨conn₀, hmem, rfl⟩

/-- Only a connection is owed anything. -/
theorem owedBy_of_not_mem {owner : Owner} (howner : owner ∉ g.conns.map Connection.owner)
    (i : Input) : g.owedBy owner i = [] := by
  cases i with
  | frame o body =>
      simp only [owedBy]
      split_ifs with ho
      · have hfind : g.conns.find? (isOf o) = none := by
          refine List.find?_eq_none.mpr fun x hx he => howner ?_
          rw [← ho, ← of_decide_eq_true he]
          exact List.mem_map_of_mem hx
        simp [request?, hfind]
      · rfl
  | _ => rfl

/-- Only a frame of its own has anything appended to a connection. -/
theorem appended_effect {i : Input} {c : Connection} (hi : ∀ body, i ≠ .frame c.owner body) :
    (g.effect i c).appended = c.appended := by
  cases i with
  | frame o body =>
      have hne : ¬ (c.owner = o ∧ c.dead = false) := fun h => hi body (by rw [h.1])
      rw [effect, if_neg hne]
  | flush o n =>
      rw [effect]
      split_ifs
      · exact Served.appended_flush c n
      · rfl
  | hangup o =>
      rw [effect]
      split_ifs <;> rfl
  | _ => rfl

/-- One action on a connection that is served. -/
theorem served_effect (hnd : (g.conns.map Connection.owner).Nodup) {c : Connection}
    (hc : c ∈ g.conns) {owed : List ExecReportMsg} (h : c.Served owed) (i : Input) :
    (g.effect i c).Served (owed ++ g.owedBy c.owner i) := by
  have hnone : c.Served (owed ++ []) := by rwa [List.append_nil]
  cases i with
  | accept => exact hnone
  | disconnect => exact hnone
  | erase => exact hnone
  | flush o n =>
      simp only [effect, owedBy]
      split_ifs
      · exact hnone.flush n
      · exact hnone
  | hangup o =>
      simp only [effect, owedBy]
      split_ifs
      · exact hnone.dead
      · exact hnone
  | frame o body =>
      by_cases ho : c.owner = o
      · subst ho
        have hfind := find?_of_mem hnd hc
        cases hlive : c.dead with
        | true => simpa [effect, owedBy, request?, hfind, hlive] using h
        | false =>
            simp only [effect, owedBy, request?, hfind, hlive, and_self, if_true, Bool.false_eq_true,
              if_false]
            cases decodeRequest body with
            | none => exact hnone.dead
            | some req => exact h.sendAll hlive _
      · simp only [effect, owedBy, ho, Ne.symm ho, false_and, if_false]
        exact hnone

end effect

/-! ### Runs -/

/-- The reports owed to a client over a run. -/
def owedTo (p : Params) (owner : Owner) (log : List Input) : List ExecReportMsg :=
  Transition.record (step OrderBook.engine) (fun owed g i _ => owed ++ owedBy g owner i) [] (new p)
    log

variable {p : Params}

theorem owedTo_append (owner : Owner) (log : List Input) (i : Input) :
    owedTo p owner (log ++ [i]) = owedTo p owner log ++ owedBy (run p log) owner i :=
  Transition.record_append _ _ _ _

open PollLoop (accepted accepted_append)

/-- Connections have the owners they were accepted with. -/
theorem owners_sublist (hp : p.Valid) {log : List Input} (hnd : (accepted log).Nodup) :
    ((run p log).conns.map Connection.owner).Sublist (accepted log) := by
  induction log using List.reverseRecOn with
  | nil => exact List.Sublist.refl _
  | append_singleton log i ih =>
      rw [accepted_append] at hnd
      specialize ih (List.Nodup.of_append_left hnd)
      have hconns := conns_step (reached_run hp log) (ih.nodup (List.Nodup.of_append_left hnd)) i
      have hmap : ((run p log).conns.map ((run p log).effect i)).map Connection.owner =
          (run p log).conns.map Connection.owner := by
        rw [List.map_map]
        exact List.map_congr_left fun c _ => owner_effect i c
      rw [run_append, hconns, accepted_append]
      cases i with
      | accept owner =>
          rw [List.map_append]
          exact ih.append (List.Sublist.refl _)
      | erase owner =>
          have herase := (List.eraseP_sublist (p := isOf owner) (l := (run p log).conns)).map
            Connection.owner
          exact (herase.trans ih).trans (List.sublist_append_left _ _)
      | _ =>
          simp only [hmap]
          exact ih.trans (List.sublist_append_left _ _)

/-- **Over every run of distinct owners, every connection is served.** -/
theorem served_run (hp : p.Valid) {log : List Input} (hnd : (accepted log).Nodup) :
    (∀ c ∈ (run p log).conns, c.Served (owedTo p c.owner log)) ∧
      ∀ owner, owner ∉ accepted log → owedTo p owner log = [] := by
  induction log using List.reverseRecOn with
  | nil => exact ⟨fun _ hc => (nomatch hc), fun _ _ => rfl⟩
  | append_singleton log i ih =>
      have hnd' : (accepted log).Nodup := by
        rw [accepted_append] at hnd
        exact List.Nodup.of_append_left hnd
      obtain ⟨hserved, hnone⟩ := ih hnd'
      have hsub := owners_sublist hp hnd'
      have hdistinct := hsub.nodup hnd'
      refine ⟨fun c hc => ?_, fun owner howner => ?_⟩
      · rw [run_append] at hc
        rw [owedTo_append]
        rcases mem_conns_step (reached_run hp log) hdistinct hc with
          ⟨c₀, hc₀, rfl⟩ | ⟨owner, rfl, rfl⟩
        · rw [owner_effect]
          exact served_effect hdistinct hc₀ (hserved c₀ hc₀) i
        · have hfresh : owner ∉ accepted log := by
            rw [accepted_append] at hnd
            exact fun h => (List.nodup_append.mp hnd).2.2 owner h owner List.mem_cons_self rfl
          rw [hnone owner hfresh]
          exact Served.new owner
      · rw [accepted_append, List.mem_append, not_or] at howner
        rw [owedTo_append, hnone owner howner.1,
          owedBy_of_not_mem fun h => howner.1 (hsub.subset h)]
        rfl

/-- What one more action leaves as it was. -/
theorem appended_step (hp : p.Valid) {log : List Input} {i : Input}
    (hnd : (accepted (log ++ [i])).Nodup) {c c' : Connection} (hc : c ∈ (run p log).conns)
    (hc' : c' ∈ (run p (log ++ [i])).conns) (howner : c'.owner = c.owner)
    (hi : ∀ body, i ≠ .frame c.owner body) : c'.appended = c.appended := by
  rw [accepted_append] at hnd
  have hnd' := List.Nodup.of_append_left hnd
  have hsub := owners_sublist hp hnd'
  have hdistinct := hsub.nodup hnd'
  have hunique : ∀ x ∈ (run p log).conns, x.owner = c.owner → x = c := fun x hx he => by
    have hfind := find?_of_mem hdistinct hx
    rw [he, find?_of_mem hdistinct hc] at hfind
    exact (Option.some.inj hfind).symm
  rw [run_append] at hc'
  rcases mem_conns_step (reached_run hp log) hdistinct hc' with ⟨c₀, hc₀, rfl⟩ | ⟨owner, rfl, rfl⟩
  · rw [owner_effect] at howner
    obtain rfl := hunique c₀ hc₀ howner
    exact appended_effect hi
  · obtain rfl : owner = c.owner := howner
    exact absurd rfl ((List.nodup_append.mp hnd).2.2 _
      (hsub.subset (List.mem_map_of_mem hc)) _ List.mem_cons_self)

end Gateway

/-! ### The poll loop -/

namespace PollLoop

open Gateway (owedTo)

/-- **Reports reach a client complete, in order and without holes**, at every point of every run:
`log` is what the loop has done up to there, and `i` is what it does next. -/
theorem delivered_run (p : Params) (hp : p.Valid) (its : List Iteration)
    (hacc : its.countP Iteration.accepts < 2 ^ 32) :
    (run p its).gateway = Gateway.run p (run p its).log ∧
      ∀ log, log <+: (run p its).log →
        (∀ c ∈ (Gateway.run p log).conns, c.Served (owedTo p c.owner log)) ∧
        ∀ i, log ++ [i] <+: (run p its).log →
          ∀ c ∈ (Gateway.run p log).conns, ∀ c' ∈ (Gateway.run p (log ++ [i])).conns,
            c'.owner = c.owner → (∀ body, i ≠ .frame c.owner body) → c'.appended = c.appended := by
  have haccounts := Accounts.run p its
  have hnd : ∀ log, log <+: (run p its).log → (accepted log).Nodup := fun log hlog =>
    (hlog.sublist.filterMap _).nodup (haccounts.nodup hacc)
  refine ⟨haccounts.gateway_eq, fun log hlog => ⟨(Gateway.served_run hp (hnd log hlog)).1, ?_⟩⟩
  intro i hi c hc c' hc' howner hframe
  exact Gateway.appended_step hp (hnd _ hi) hc hc' howner hframe

/-- A client sends two orders that cross each other and takes the reports in two parts. -/
theorem delivered_run_small :
    let p : Params := { stp := .cancelResting, poolCapacity := 1, bandHi := 9, idMapSlots := 4 }
    let bytes := ((NewOrderMsg.encode 64 ⟨7, 5, 3, .ask, .gtc⟩).getD []) ++
      (NewOrderMsg.encode 64 ⟨8, 6, 4, .bid, .gtc⟩).getD []
    let its : List Iteration := [{ accepts := true },
      { ready := fun _ => { readable := true, recvs := [.got (bytes.take 30), .got (bytes.drop 30)]
                            moreSends := [.took 20] } },
      { ready := fun _ => { broken := true, lastSends := [.took 28] } }]
    (run p its).gateway = Gateway.run p (run p its).log ∧
      ∀ log, log <+: (run p its).log →
        (∀ c ∈ (Gateway.run p log).conns, c.Served (owedTo p c.owner log)) ∧
        ∀ i, log ++ [i] <+: (run p its).log →
          ∀ c ∈ (Gateway.run p log).conns, ∀ c' ∈ (Gateway.run p (log ++ [i])).conns,
            c'.owner = c.owner → (∀ body, i ≠ .frame c.owner body) → c'.appended = c.appended :=
  delivered_run _ ⟨by decide, by decide, by decide, by decide⟩ _ (by decide)

end PollLoop

end Lob
