import LimitOrderBook.Decoders

/-! # Client messages

`handle_frame` executes a frame exactly when it is the encoding of a new order, a cancel, a modify
or a market order, with the prices of the 64-bit range (`decodeRequest_eq_some_iff`): it picks the
decoder by the type byte, and what the decoder takes behind it is the payload of its message. -/

namespace Lob

namespace Request

/-- The message that a client sends. -/
def message : Request → Message
  | newOrder m => .newOrder m
  | market m => .market m
  | cancel m => .cancel m
  | modify m => .modify m

/-- **A frame is executed if and only if it is the encoding of a client message.** -/
theorem decodeRequest_eq_some_iff {body : List UInt8} {req : Request} :
    decodeRequest body = some req ↔ req.message.InRange ∧ body = req.message.body := by
  constructor
  · intro h
    obtain ⟨b, hpeek, h⟩ := Option.bind_eq_some_iff.mp h
    obtain ⟨t, ht, h⟩ := Option.bind_eq_some_iff.mp h
    have hcode := ofCode?_eq_some ht
    have hbody : body = t.code :: body.drop 1 := by
      cases body with
      | nil => cases hpeek
      | cons b' bs =>
          obtain rfl : b' = b := Option.some.inj hpeek
          rw [hcode]
          rfl
    have hdecodes : req.message.Decodes body ∧ req.message.type = t := by
      cases t with
      | newOrder =>
          obtain ⟨m, hm, rfl⟩ := Option.map_eq_some_iff.mp h
          exact ⟨hm, rfl⟩
      | market =>
          obtain ⟨m, hm, rfl⟩ := Option.map_eq_some_iff.mp h
          exact ⟨hm, rfl⟩
      | cancel =>
          obtain ⟨m, hm, rfl⟩ := Option.map_eq_some_iff.mp h
          exact ⟨hm, rfl⟩
      | modify =>
          obtain ⟨m, hm, rfl⟩ := Option.map_eq_some_iff.mp h
          exact ⟨hm, rfl⟩
      | execReport => cases h
      | trade => cases h
      | book => cases h
    obtain ⟨hdecodes, rfl⟩ := hdecodes
    obtain ⟨hpayload, hrange⟩ := hdecodes.taken
    refine ⟨hrange, hbody.trans ?_⟩
    rw [hpayload, Message.body]
  · rintro ⟨hrange, rfl⟩
    have hdecodes := req.message.decodes hrange
    simp only [decodeRequest, req.message.peekType_body, Option.bind_eq_bind, Option.bind_some]
    cases req with
    | newOrder m =>
        have hm : decodeNewOrder (Message.newOrder m).body = some m := hdecodes
        change newOrder <$> decodeNewOrder (Message.newOrder m).body = _
        rw [hm]
        rfl
    | market m =>
        have hm : decodeMarket (Message.market m).body = some m := hdecodes
        change market <$> decodeMarket (Message.market m).body = _
        rw [hm]
        rfl
    | cancel m =>
        have hm : decodeCancel (Message.cancel m).body = some m := hdecodes
        change cancel <$> decodeCancel (Message.cancel m).body = _
        rw [hm]
        rfl
    | modify m =>
        have hm : decodeModify (Message.modify m).body = some m := hdecodes
        change modify <$> decodeModify (Message.modify m).body = _
        rw [hm]
        rfl

end Request

end Lob
