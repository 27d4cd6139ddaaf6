import Ember.EditorConn.Serde
import Ember.EditorConn.Frame

/-!
# Messages of the extension host

A request with JSON arguments alone is written as one JSON array, any other with each argument after
its kind. What was encoded is decoded as the same message: **`decode_of_encode`**.
-/

namespace Ember.EditorConn

namespace MsgType

@[match_pattern] def REQUEST_JSON_ARGS : UInt8 := 1
@[match_pattern] def REQUEST_JSON_ARGS_WITH_CANCELLATION : UInt8 := 2
@[match_pattern] def REQUEST_MIXED_ARGS : UInt8 := 3
@[match_pattern] def REQUEST_MIXED_ARGS_WITH_CANCELLATION : UInt8 := 4
@[match_pattern] def ACKNOWLEDGED : UInt8 := 5
@[match_pattern] def CANCEL : UInt8 := 6
@[match_pattern] def REPLY_OK_EMPTY : UInt8 := 7
@[match_pattern] def REPLY_OK_VSBUFFER : UInt8 := 8
@[match_pattern] def REPLY_OK_JSON : UInt8 := 9
@[match_pattern] def REPLY_OK_JSON_WITH_BUFFERS : UInt8 := 10
@[match_pattern] def REPLY_ERR_ERROR : UInt8 := 11
@[match_pattern] def REPLY_ERR_EMPTY : UInt8 := 12

end MsgType

namespace ArgType

@[match_pattern] def STRING : UInt8 := 1
@[match_pattern] def VSBUFFER : UInt8 := 2
@[match_pattern] def SERIALIZED_OBJECT_WITH_BUFFERS : UInt8 := 3
@[match_pattern] def UNDEFINED : UInt8 := 4

end ArgType

/-- `Arg`: one positional argument. -/
inductive Arg (J : Type)
  | json (v : J)
  | undefined
  | buffer (b : Data)
  | jsonWithBuffers (value : J) (buffers : List Data)
  deriving DecidableEq

/-- `Arg::as_json`. -/
def Arg.asJson {J : Type} : Arg J → Option J
  | .json v => some v
  | .jsonWithBuffers value _ => some value
  | _ => none

/-- `matches!(a, Arg::Json(_))`. -/
def Arg.isJson {J : Type} : Arg J → Bool
  | .json _ => true
  | _ => false

/-- `Reply`: a successful reply payload. -/
inductive RpcReply (J : Type)
  | empty
  | json (v : J)
  | buffer (b : Data)
  | jsonWithBuffers (value : J) (buffers : List Data)
  deriving DecidableEq

/-- `RpcMessage`. -/
inductive RpcMessage (J : Type)
  | request (req : UInt32) (rpcId : UInt8) (method : String) (args : List (Arg J))
      (cancellable : Bool)
  | acknowledged (req : UInt32)
  | cancel (req : UInt32)
  | replyOk (req : UInt32) (reply : RpcReply J)
  | replyErr (req : UInt32) (error : Option J)
  deriving DecidableEq

variable {req : UInt32} {bs name : List UInt8} {method s : String} {rpcId ty : UInt8}

namespace RpcMessage

/-! ### Encoding -/

/-- `put_u32`. -/
def putU32 (v : UInt32) : List UInt8 := be32 v.toNat

/-- `put_short_string`. -/
def putShortString (s : String) : Except Error (List UInt8) :=
  let b := utf8 s
  if b.length > 255 then .error (.malformed ("method name too long: " ++ s))
  else .ok (UInt8.ofNat b.length :: b)

/-- `put_buffer`. -/
def putBuffer (b : Data) : List UInt8 := putU32 (UInt32.ofNat b.length) ++ b

/-- `put_long_string`. -/
def putLongString (s : String) : List UInt8 := putBuffer (utf8 s)

variable {J : Type} (serde : Serde J)

/-- JSON and its buffers, as an argument and a reply write them. -/
def putJsonWithBuffers (value : J) (buffers : List Data) : List UInt8 :=
  putU32 (UInt32.ofNat buffers.length) ++
    (putLongString (serde.toText value) ++ buffers.flatMap putBuffer)

/-- One argument of a request with mixed arguments. -/
def encodeArg : Arg J → List UInt8
  | .json v => ArgType.STRING :: putLongString (serde.toText v)
  | .buffer b => ArgType.VSBUFFER :: putBuffer b
  | .jsonWithBuffers value buffers =>
    ArgType.SERIALIZED_OBJECT_WITH_BUFFERS :: putJsonWithBuffers serde value buffers
  | .undefined => [ArgType.UNDEFINED]

/-- The type of a request. -/
def requestType : Bool → Bool → UInt8
  | true, false => MsgType.REQUEST_JSON_ARGS
  | true, true => MsgType.REQUEST_JSON_ARGS_WITH_CANCELLATION
  | false, false => MsgType.REQUEST_MIXED_ARGS
  | false, true => MsgType.REQUEST_MIXED_ARGS_WITH_CANCELLATION

/-- The arguments of a request: one array, or a count and each argument. -/
def encodeArgs (args : List (Arg J)) : Except Error (List UInt8) :=
  if args.all Arg.isJson then .ok (putLongString (serde.arrayText (args.filterMap Arg.asJson)))
  else if args.length > 255 then .error (.malformed "more than 255 mixed args")
  else .ok (UInt8.ofNat args.length :: args.flatMap (encodeArg serde))

/-- `RpcMessage::encode`. -/
def encode : RpcMessage J → Except Error (List UInt8)
  | .request req rpcId method args cancellable => do
    let name ← putShortString method
    let body ← encodeArgs serde args
    return requestType (args.all Arg.isJson) cancellable ::
      (putU32 req ++ ([rpcId] ++ (name ++ body)))
  | .acknowledged req => .ok (MsgType.ACKNOWLEDGED :: putU32 req)
  | .cancel req => .ok (MsgType.CANCEL :: putU32 req)
  | .replyOk req .empty => .ok (MsgType.REPLY_OK_EMPTY :: putU32 req)
  | .replyOk req (.buffer b) => .ok (MsgType.REPLY_OK_VSBUFFER :: (putU32 req ++ putBuffer b))
  | .replyOk req (.json v) =>
    .ok (MsgType.REPLY_OK_JSON :: (putU32 req ++ putLongString (serde.toText v)))
  | .replyOk req (.jsonWithBuffers value buffers) =>
    .ok (MsgType.REPLY_OK_JSON_WITH_BUFFERS ::
      (putU32 req ++ putJsonWithBuffers serde value buffers))
  | .replyErr req (some e) =>
    .ok (MsgType.REPLY_ERR_ERROR :: (putU32 req ++ putLongString (serde.toText e)))
  | .replyErr req none => .ok (MsgType.REPLY_ERR_EMPTY :: putU32 req)

/-! ### Decoding -/

/-- The failure of `Reader::take`. -/
def truncatedRpc : Error := .malformed "truncated RPC message"

/-- `Reader::u8`. -/
def u8 : Reader Error UInt8 UInt8 := Reader.next truncatedRpc

/-- `Reader::u32`. -/
def u32 : Reader Error UInt8 UInt32 := do
  pure (UInt32.ofNat (ofBe32 (← Reader.take truncatedRpc 4)))

/-- `Reader::short_string`. -/
def shortString : Reader Error UInt8 String := do
  let n ← u8
  pure (utf8Lossy (← Reader.take truncatedRpc n.toNat))

/-- `Reader::buffer`. -/
def buffer : Reader Error UInt8 Data := do
  let n ← u32
  Reader.take truncatedRpc n.toNat

/-- `Reader::long_string`. -/
def longString : Reader Error UInt8 String := do
  let n ← u32
  pure (utf8Lossy (← Reader.take truncatedRpc n.toNat))

/-- A JSON value in a long string. -/
def readJson : Reader Error UInt8 J := do
  let s ← longString
  liftJson (serde.fromStr s)

/-- JSON and its buffers, as an argument and a reply read them. -/
def readJsonWithBuffers : Reader Error UInt8 (J × List Data) := do
  let count ← u32
  let value ← readJson serde
  let buffers ← Reader.times buffer count.toNat
  pure (value, buffers)

/-- One argument of a request with mixed arguments. -/
def readArg : Reader Error UInt8 (Arg J) := do
  match ← u8 with
  | ArgType.STRING => do pure (.json (← readJson serde))
  | ArgType.VSBUFFER => do pure (.buffer (← buffer))
  | ArgType.SERIALIZED_OBJECT_WITH_BUFFERS => do
    let (value, buffers) ← readJsonWithBuffers serde
    pure (.jsonWithBuffers value buffers)
  | ArgType.UNDEFINED => pure .undefined
  | other => throw (.malformed ("unknown arg type " ++ toString other.toNat))

/-- A request with JSON arguments alone. -/
def readJsonRequest (req : UInt32) (cancellable : Bool) : Reader Error UInt8 (RpcMessage J) := do
  let rpcId ← u8
  let method ← shortString
  let s ← longString
  let args ← liftJson (serde.arrayFromStr s)
  pure (.request req rpcId method (args.map .json) cancellable)

/-- A request with mixed arguments. -/
def readMixedRequest (req : UInt32) (cancellable : Bool) : Reader Error UInt8 (RpcMessage J) := do
  let rpcId ← u8
  let method ← shortString
  let n ← u8
  let args ← Reader.times (readArg serde) n.toNat
  pure (.request req rpcId method args cancellable)

/-- A message, as far as its type and its id decide. -/
def readBody (ty : UInt8) (req : UInt32) : Reader Error UInt8 (RpcMessage J) :=
  match ty with
  | MsgType.REQUEST_JSON_ARGS => readJsonRequest serde req false
  | MsgType.REQUEST_JSON_ARGS_WITH_CANCELLATION => readJsonRequest serde req true
  | MsgType.REQUEST_MIXED_ARGS => readMixedRequest serde req false
  | MsgType.REQUEST_MIXED_ARGS_WITH_CANCELLATION => readMixedRequest serde req true
  | MsgType.ACKNOWLEDGED => pure (.acknowledged req)
  | MsgType.CANCEL => pure (.cancel req)
  | MsgType.REPLY_OK_EMPTY => pure (.replyOk req .empty)
  | MsgType.REPLY_OK_VSBUFFER => do pure (.replyOk req (.buffer (← buffer)))
  | MsgType.REPLY_OK_JSON => do pure (.replyOk req (.json (← readJson serde)))
  | MsgType.REPLY_OK_JSON_WITH_BUFFERS => do
    let (value, buffers) ← readJsonWithBuffers serde
    pure (.replyOk req (.jsonWithBuffers value buffers))
  | MsgType.REPLY_ERR_ERROR => do pure (.replyErr req (some (← readJson serde)))
  | MsgType.REPLY_ERR_EMPTY => pure (.replyErr req none)
  | other => throw (.malformed ("unknown RPC message type " ++ toString other.toNat))

/-- The whole of `RpcMessage::decode`, with what it left. -/
def read : Reader Error UInt8 (RpcMessage J) := do
  let ty ← u8
  let req ← u32
  readBody serde ty req

/-- `RpcMessage::decode`: bytes behind the message are not looked at. -/
def decode (buf : List UInt8) : Except Error (RpcMessage J) := Prod.fst <$> (read serde).run buf

/-! ### Reading back what was written -/

/-- The lengths that are written for JSON and its buffers are below `2^32`. -/
structure JsonWithBuffersFit (value : J) (buffers : List Data) : Prop where
  value_lt : (utf8 (serde.toText value)).length < 2 ^ 32
  buffers_lt : buffers.length < 2 ^ 32
  buffer_lt : ∀ b ∈ buffers, b.length < 2 ^ 32

/-- The lengths that are written for an argument of its own are below `2^32`. -/
def ArgFits : Arg J → Prop
  | .json v => (utf8 (serde.toText v)).length < 2 ^ 32
  | .buffer b => b.length < 2 ^ 32
  | .jsonWithBuffers value buffers => JsonWithBuffersFit serde value buffers
  | .undefined => True

/-- Every length that is written for a message is below `2^32`. -/
def Fits : RpcMessage J → Prop
  | .request _ _ _ args _ =>
    if args.all Arg.isJson then
      (utf8 (serde.arrayText (args.filterMap Arg.asJson))).length < 2 ^ 32
    else ∀ a ∈ args, ArgFits serde a
  | .acknowledged _ => True
  | .cancel _ => True
  | .replyOk _ .empty => True
  | .replyOk _ (.buffer b) => b.length < 2 ^ 32
  | .replyOk _ (.json v) => (utf8 (serde.toText v)).length < 2 ^ 32
  | .replyOk _ (.jsonWithBuffers value buffers) => JsonWithBuffersFit serde value buffers
  | .replyErr _ (some e) => (utf8 (serde.toText e)).length < 2 ^ 32
  | .replyErr _ none => True

theorem reads_u8 (b : UInt8) : Reader.Reads u8 [b] b := Reader.reads_next truncatedRpc b

theorem reads_u32 (v : UInt32) : Reader.Reads u32 (putU32 v) v := by
  have h := (Reader.reads_take truncatedRpc (putU32 v)).map fun bs ↦ UInt32.ofNat (ofBe32 bs)
  rwa [putU32, ofBe32_be32 v.toNat_lt, UInt32.ofNat_toNat] at h

theorem reads_buffer {b : Data} (h : b.length < 2 ^ 32) : Reader.Reads buffer (putBuffer b) b := by
  refine (reads_u32 _).bind ?_
  rw [show (UInt32.ofNat b.length).toNat = b.length from UInt32.toNat_ofNat_of_lt' h]
  exact Reader.reads_take truncatedRpc b

theorem reads_longString (h : (utf8 s).length < 2 ^ 32) :
    Reader.Reads longString (putLongString s) s := by
  refine (reads_u32 _).bind ?_
  rw [show (UInt32.ofNat (utf8 s).length).toNat = (utf8 s).length from
    UInt32.toNat_ofNat_of_lt' h]
  have hread := (Reader.reads_take truncatedRpc (utf8 s)).map utf8Lossy
  rwa [utf8Lossy_utf8] at hread

/-- A method name that was written is read back. -/
theorem reads_shortString (h : putShortString s = .ok bs) :
    Reader.Reads shortString bs s := by
  unfold putShortString at h
  dsimp only at h
  split at h
  · cases h
  · next hlen =>
    cases h
    have hlt : (utf8 s).length < 2 ^ 8 := by omega
    refine (reads_u8 _).bind ?_
    rw [show (UInt8.ofNat (utf8 s).length).toNat = (utf8 s).length from
      UInt8.toNat_ofNat_of_lt' hlt]
    have hread := (Reader.reads_take truncatedRpc (utf8 s)).map utf8Lossy
    rwa [utf8Lossy_utf8] at hread

variable {serde}

theorem reads_readJson (hs : serde.RoundTrips) {v : J}
    (h : (utf8 (serde.toText v)).length < 2 ^ 32) :
    Reader.Reads (readJson serde) (putLongString (serde.toText v)) v := by
  have hread := (reads_longString h).bind (f := fun s ↦ liftJson (serde.fromStr s))
    (reads_liftJson (hs.fromStr_toText v))
  rwa [List.append_nil] at hread

theorem reads_readJsonWithBuffers (hs : serde.RoundTrips) {value : J} {buffers : List Data}
    (h : JsonWithBuffersFit serde value buffers) :
    Reader.Reads (readJsonWithBuffers serde) (putJsonWithBuffers serde value buffers)
      (value, buffers) := by
  refine (reads_u32 _).bind ((reads_readJson hs h.value_lt).bind ?_)
  rw [show (UInt32.ofNat buffers.length).toNat = buffers.length from
    UInt32.toNat_ofNat_of_lt' h.buffers_lt]
  exact (Reader.reads_times fun b hb ↦ reads_buffer (h.buffer_lt b hb)).map fun bs ↦ (value, bs)

theorem reads_readArg (hs : serde.RoundTrips) {a : Arg J} (h : ArgFits serde a) :
    Reader.Reads (readArg serde) (encodeArg serde a) a := by
  cases a with
  | json v => exact (reads_u8 ArgType.STRING).bind ((reads_readJson hs h).map Arg.json)
  | undefined => exact (reads_u8 ArgType.UNDEFINED).bind (Reader.reads_pure _)
  | buffer b =>
    exact (reads_u8 ArgType.VSBUFFER).bind
      ((reads_buffer h).map fun b ↦ (Arg.buffer b : Arg J))
  | jsonWithBuffers value buffers =>
    exact (reads_u8 ArgType.SERIALIZED_OBJECT_WITH_BUFFERS).bind
      ((reads_readJsonWithBuffers hs h).map fun p ↦ Arg.jsonWithBuffers p.1 p.2)

/-- Arguments that are all JSON are the ones that the array gives back. -/
theorem map_json_filterMap {args : List (Arg J)} (h : args.all Arg.isJson = true) :
    (args.filterMap Arg.asJson).map Arg.json = args := by
  induction args with
  | nil => rfl
  | cons a args ih =>
    rw [List.all_cons, Bool.and_eq_true] at h
    cases a with
    | json v =>
      show Arg.json v :: (args.filterMap Arg.asJson).map Arg.json = _
      rw [ih h.2]
    | undefined | buffer | jsonWithBuffers => exact absurd h.1 Bool.false_ne_true

/-- A message is read from its type, its id and its body. -/
theorem reads_read {body : List UInt8} {m : RpcMessage J}
    (h : Reader.Reads (readBody serde ty req) body m) :
    Reader.Reads (read serde) (ty :: (putU32 req ++ body)) m :=
  (reads_u8 ty).bind ((reads_u32 req).bind h)

/-- A message without a body. -/
theorem reads_read_empty {m : RpcMessage J} (h : Reader.Reads (readBody serde ty req) [] m) :
    Reader.Reads (read serde) (ty :: putU32 req) m := by
  have hread := reads_read h
  rwa [List.append_nil] at hread

/-- The body of a request whose arguments are all JSON. -/
theorem reads_readJsonRequest (hs : serde.RoundTrips) {args : List (Arg J)} (cancellable : Bool)
    (hname : putShortString method = .ok name) (hall : args.all Arg.isJson = true)
    (h : (utf8 (serde.arrayText (args.filterMap Arg.asJson))).length < 2 ^ 32) :
    Reader.Reads (readJsonRequest serde req cancellable)
      ([rpcId] ++ (name ++ putLongString (serde.arrayText (args.filterMap Arg.asJson))))
      (.request req rpcId method args cancellable) := by
  refine (reads_u8 rpcId).bind ((reads_shortString hname).bind ?_)
  have hread := (reads_longString h).bind
    (f := fun s ↦ do
      pure (request req rpcId method ((← liftJson (serde.arrayFromStr s)).map .json) cancellable))
    ((reads_liftJson (hs.arrayFromStr_arrayText _)).map _)
  rwa [List.append_nil, map_json_filterMap hall] at hread

/-- The body of a request with at most 255 arguments of any kind. -/
theorem reads_readMixedRequest (hs : serde.RoundTrips) {args : List (Arg J)} (cancellable : Bool)
    (hname : putShortString method = .ok name) (hlen : args.length < 2 ^ 8)
    (h : ∀ a ∈ args, ArgFits serde a) :
    Reader.Reads (readMixedRequest serde req cancellable)
      ([rpcId] ++ (name ++ ([UInt8.ofNat args.length] ++ args.flatMap (encodeArg serde))))
      (.request req rpcId method args cancellable) := by
  refine (reads_u8 rpcId).bind ((reads_shortString hname).bind ((reads_u8 _).bind ?_))
  rw [show (UInt8.ofNat args.length).toNat = args.length from UInt8.toNat_ofNat_of_lt' hlen]
  exact (Reader.reads_times fun a ha ↦ reads_readArg hs (h a ha)).map fun args ↦
    request req rpcId method args cancellable

theorem reads_request (hs : serde.RoundTrips) {args : List (Arg J)} {cancellable : Bool}
    (h : Fits serde (.request req rpcId method args cancellable))
    (he : encode serde (.request req rpcId method args cancellable) = .ok bs) :
    Reader.Reads (read serde) bs (.request req rpcId method args cancellable) := by
  rw [encode] at he
  cases hname : putShortString method with
  | error e =>
    rw [hname] at he
    cases he
  | ok name =>
    cases hargs : encodeArgs serde args with
    | error e =>
      rw [hname, hargs] at he
      cases he
    | ok body =>
      rw [hname, hargs] at he
      cases he
      rw [Fits] at h
      unfold encodeArgs at hargs
      split at hargs
      · next hall =>
        cases hargs
        rw [if_pos hall] at h
        rw [hall]
        cases cancellable with
        | false => exact reads_read (reads_readJsonRequest hs false hname hall h)
        | true => exact reads_read (reads_readJsonRequest hs true hname hall h)
      · next hall =>
        split at hargs
        · cases hargs
        · next hlen =>
          cases hargs
          rw [if_neg hall] at h
          rw [Bool.not_eq_true] at hall
          rw [hall]
          have hlt : args.length < 2 ^ 8 := by omega
          cases cancellable with
          | false => exact reads_read (reads_readMixedRequest hs false hname hlt h)
          | true => exact reads_read (reads_readMixedRequest hs true hname hlt h)

/-- What was encoded is read as the message, whatever follows it. -/
theorem reads_encode (hs : serde.RoundTrips) {m : RpcMessage J} (h : Fits serde m)
    (he : m.encode serde = .ok bs) : Reader.Reads (read serde) bs m := by
  match m with
  | .request .. => exact reads_request hs h he
  | .acknowledged req => cases he; exact reads_read_empty (Reader.reads_pure _)
  | .cancel req => cases he; exact reads_read_empty (Reader.reads_pure _)
  | .replyOk req .empty => cases he; exact reads_read_empty (Reader.reads_pure _)
  | .replyOk req (.buffer b) =>
    cases he
    exact reads_read ((reads_buffer h).map fun b ↦ (replyOk req (.buffer b) : RpcMessage J))
  | .replyOk req (.json v) =>
    cases he
    exact reads_read ((reads_readJson hs h).map fun v ↦ replyOk req (.json v))
  | .replyOk req (.jsonWithBuffers value buffers) =>
    cases he
    exact reads_read ((reads_readJsonWithBuffers hs h).map fun p ↦
      replyOk req (.jsonWithBuffers p.1 p.2))
  | .replyErr req (some e) =>
    cases he
    exact reads_read ((reads_readJson hs h).map fun e ↦ replyErr req (some e))
  | .replyErr req none => cases he; exact reads_read_empty (Reader.reads_pure _)

/-- **A message comes back**: decoding what was encoded gives the message again, with its ids, its
method, its flag and every argument in order, or the reply or error it carries. -/
theorem decode_of_encode (hs : serde.RoundTrips) {m : RpcMessage J} (h : Fits serde m)
    {bs : List UInt8} (he : m.encode serde = .ok bs) : decode serde bs = .ok m := by
  rw [decode, (reads_encode hs h he).run_eq]
  rfl

/-- A request with an argument of every kind. -/
theorem decode_of_encode_mixed :
    decode boolSerde [4, 0, 0, 0, 9, 5, 1, 109, 4, 1, 0, 0, 0, 4, 116, 114, 117, 101, 4,
        2, 0, 0, 0, 1, 7, 3, 0, 0, 0, 1, 0, 0, 0, 4, 116, 114, 117, 101, 0, 0, 0, 1, 8] =
      .ok (.request 9 5 "m" [.json true, .undefined, .buffer [7], .jsonWithBuffers true [[8]]]
        true) :=
  decode_of_encode boolSerde_roundTrips
    (by
      have htext : (utf8 (boolText true)).length < 2 ^ 32 := by decide
      show ∀ a ∈ _, ArgFits boolSerde a
      simp only [List.forall_mem_cons]
      exact ⟨htext, trivial, show [(7 : UInt8)].length < 2 ^ 32 by decide,
        ⟨htext, by decide, by decide⟩, by simp⟩)
    (by decide)

end RpcMessage

end Ember.EditorConn
