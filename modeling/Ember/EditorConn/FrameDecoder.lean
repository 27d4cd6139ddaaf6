import Ember.EditorConn.Frame
import Ember.EditorConn.Serde
import Ember.Foundation.Framing

/-!
# Frames on the wire

A frame is a header of thirteen bytes and its payload. The decoder buffers what the socket gave and
hands out whole frames; **`frames_of_chunks`** says that it hands out what was encoded, however the
stream was cut.
-/

namespace Ember.EditorConn

/-- `HEADER_LEN`. -/
def HEADER_LEN : ℕ := 13

/-- `MAX_FRAME_LEN`. -/
def MAX_FRAME_LEN : ℕ := 256 * 1024 * 1024

/-- The header of a frame with this payload. -/
def Frame.header (f : Frame) : List UInt8 :=
  f.ty.toU8 :: (be32 f.id ++ (be32 f.ack ++ be32 f.data.length))

/-- `Frame::encode`. -/
def Frame.encode (f : Frame) : List UInt8 := f.header ++ f.data

/-- Ids and acknowledgements are `u32`, and the payload is within the limit. -/
structure Frame.Fits (f : Frame) : Prop where
  id_lt : f.id < 2 ^ 32
  ack_lt : f.ack < 2 ^ 32
  length_le : f.data.length ≤ MAX_FRAME_LEN

/-- `FrameDecoder`. -/
structure FrameDecoder where
  buf : List UInt8
  deriving DecidableEq, Repr

namespace FrameDecoder

/-- `FrameDecoder::new`. -/
def new : FrameDecoder := ⟨[]⟩

/-- `FrameDecoder::push`. -/
def push (d : FrameDecoder) (chunk : List UInt8) : FrameDecoder := ⟨d.buf ++ chunk⟩

/-- The `u32` at an offset, `u32::from_be_bytes(buf[at..at + 4])`. -/
def u32At (buf : List UInt8) (i : ℕ) : ℕ := ofBe32 ((buf.drop i).take 4)

/-- `FrameDecoder::next_frame`. -/
def nextFrame (d : FrameDecoder) : Except Error (Option Frame) × FrameDecoder :=
  if d.buf.length < HEADER_LEN then (.ok none, d)
  else
    let tyRaw := d.buf.headD 0
    let id := u32At d.buf 1
    let ack := u32At d.buf 5
    let len := u32At d.buf 9
    if len > MAX_FRAME_LEN then
      (.error (.malformed ("frame length " ++ toString len ++ " exceeds limit")), d)
    else if d.buf.length < HEADER_LEN + len then (.ok none, d)
    else
      let data := (d.buf.drop HEADER_LEN).take len
      let ty := (MessageType.fromU8 tyRaw).getD .none
      (.ok (some ⟨ty, id, ack, data⟩), ⟨d.buf.drop (HEADER_LEN + len)⟩)

/-- Without a frame the buffer stays as it was, and a frame takes its header and its payload from
the front. -/
theorem nextFrame_cases (d : FrameDecoder) :
    (∃ r, d.nextFrame = (r, d) ∧ ∀ f, r ≠ .ok (some f)) ∨
      ∃ f raw rest, d.nextFrame = (.ok (some f), ⟨rest⟩) ∧ d.buf = raw ++ rest ∧
        raw.length = HEADER_LEN + f.data.length := by
  unfold nextFrame
  split
  · exact .inl ⟨_, rfl, fun f h ↦ by cases h⟩
  · dsimp only
    split
    · exact .inl ⟨_, rfl, fun f h ↦ by cases h⟩
    · split
      · exact .inl ⟨_, rfl, fun f h ↦ by cases h⟩
      · next hlen =>
        refine .inr ⟨_, d.buf.take (HEADER_LEN + u32At d.buf 9), _, rfl,
          (List.take_append_drop ..).symm, ?_⟩
        rw [List.length_take, List.length_take, List.length_drop]
        omega

theorem length_nextFrame_lt {d e : FrameDecoder} {f : Frame}
    (h : d.nextFrame = (.ok (some f), e)) : e.buf.length < d.buf.length := by
  rcases d.nextFrame_cases with ⟨r, hr, hne⟩ | ⟨g, raw, rest, hg, hbuf, hraw⟩
  · rw [hr] at h
    exact absurd (congrArg Prod.fst h) (hne f)
  · rw [hg] at h
    cases h
    rw [hbuf, List.length_append, hraw]
    show rest.length < _
    unfold HEADER_LEN
    omega

/-- The decoder, as it is drained after every chunk. -/
def deframer : Deframer FrameDecoder Error UInt8 Frame where
  push := push
  next := nextFrame
  buffered := buf
  buffered_push _ _ := rfl
  length_next_lt := length_nextFrame_lt

end FrameDecoder

/-! ### Reading back what was encoded -/

namespace Frame

variable {f : Frame}

theorem length_header (f : Frame) : f.header.length = HEADER_LEN := rfl

/-- The fields that the decoder reads from a header. -/
theorem Fits.read_header (h : f.Fits) (rest : List UInt8) :
    FrameDecoder.u32At (f.header ++ rest) 1 = f.id ∧
      FrameDecoder.u32At (f.header ++ rest) 5 = f.ack ∧
      FrameDecoder.u32At (f.header ++ rest) 9 = f.data.length := by
  have hlen := h.length_le
  unfold MAX_FRAME_LEN at hlen
  exact ⟨ofBe32_be32 h.id_lt, ofBe32_be32 h.ack_lt, ofBe32_be32 (by omega)⟩

end Frame

namespace FrameDecoder

variable {f : Frame} {d : FrameDecoder}

/-- Less than a header is left alone. -/
theorem nextFrame_of_short (h : d.buf.length < HEADER_LEN) : d.nextFrame = (.ok none, d) := by
  rw [nextFrame, if_pos h]

/-- A header, and as much of its payload as has arrived. -/
theorem nextFrame_of_header (h : f.Fits) {body : List UInt8} (hd : d.buf = f.header ++ body) :
    d.nextFrame =
      if body.length < f.data.length then (.ok none, d)
      else (.ok (some { f with data := body.take f.data.length }),
        ⟨body.drop f.data.length⟩) := by
  obtain ⟨hid, hack, hlen⟩ := h.read_header body
  have hbuf : d.buf.length = HEADER_LEN + body.length := by
    rw [hd, List.length_append, Frame.length_header]
  have hty : (MessageType.fromU8 ((f.header ++ body).headD 0)).getD .none = f.ty := by
    show (MessageType.fromU8 f.ty.toU8).getD .none = f.ty
    rw [MessageType.fromU8_toU8]
    rfl
  have hdrop : ∀ n, (f.header ++ body).drop (HEADER_LEN + n) = body.drop n := fun n ↦ by
    rw [← List.drop_drop, ← Frame.length_header f, List.drop_left]
  rw [nextFrame, if_neg (by omega)]
  dsimp only
  rw [hbuf, hd, hid, hack, hlen, hty, hdrop, if_neg (Nat.not_lt.2 h.length_le),
    show (f.header ++ body).drop HEADER_LEN = body from hdrop 0]
  by_cases hshort : body.length < f.data.length
  · rw [if_pos hshort, if_pos (by omega)]
  · rw [if_neg hshort, if_neg (by omega)]

/-- **A frame comes back**: the decoder reads what was encoded, and takes nothing else. -/
theorem nextFrame_encode (h : f.Fits) {rest : List UInt8} (hd : d.buf = f.encode ++ rest) :
    d.nextFrame = (.ok (some f), ⟨rest⟩) := by
  rw [nextFrame_of_header h (hd.trans (List.append_assoc ..)),
    if_neg (by rw [List.length_append]; omega), List.take_left, List.drop_left]

/-- A part of a frame is left alone, wherever the cut is. -/
theorem nextFrame_of_part (h : f.Fits) {missing : List UInt8} (hne : missing ≠ [])
    (hd : d.buf ++ missing = f.encode) : d.nextFrame = (.ok none, d) := by
  rcases Nat.lt_or_ge d.buf.length HEADER_LEN with hshort | hlong
  · exact nextFrame_of_short hshort
  · -- the header is there, so what is missing belongs to the payload
    obtain ⟨body, hbody⟩ : f.header <+: d.buf :=
      List.prefix_of_prefix_length_le ⟨f.data, rfl⟩ ⟨missing, hd⟩ hlong
    rw [← hbody, Frame.encode, List.append_assoc] at hd
    have hdata : body ++ missing = f.data := List.append_cancel_left hd
    rw [nextFrame_of_header h hbody.symm, if_pos]
    rw [← hdata, List.length_append]
    exact Nat.lt_add_of_pos_right (List.length_pos_iff.2 hne)

theorem decodes : deframer.Decodes Frame.encode Frame.Fits where
  next_nil d hd := nextFrame_of_short (by
    rw [show d.buf = [] from hd]
    decide)
  next_frame d f rest hf hd := ⟨⟨rest⟩, nextFrame_encode hf hd, rfl⟩
  next_part d f missing hf hne hd := nextFrame_of_part hf hne hd

end FrameDecoder

/-- **Cutting the stream does not matter**: pushing the chunks one by one and draining the decoder
after each hands out exactly the frames that were encoded, with nothing left in the buffer. An
attempt takes a whole frame from the front of the buffer or leaves the buffer as it is; in front of
a part of a frame it does the latter. -/
theorem FrameDecoder.frames_of_chunks (fs : List Frame) (hfs : ∀ f ∈ fs, f.Fits)
    {chunks : List (List UInt8)} (h : chunks.flatten = fs.flatMap Frame.encode) :
    deframer.feedAll new chunks = ⟨fs, none, new⟩ ∧
      (∀ d : FrameDecoder, (∃ r, d.nextFrame = (r, d) ∧ ∀ f, r ≠ .ok (some f)) ∨
        ∃ f raw rest, d.nextFrame = (.ok (some f), ⟨rest⟩) ∧ d.buf = raw ++ rest ∧
          raw.length = HEADER_LEN + f.data.length) ∧
      ∀ (d : FrameDecoder) (f : Frame) (missing : List UInt8), f.Fits → missing ≠ [] →
        d.buf ++ missing = f.encode → d.nextFrame = (.ok none, d) := by
  refine ⟨?_, nextFrame_cases, fun d f missing hf hne hd ↦ nextFrame_of_part hf hne hd⟩
  obtain ⟨t, hfeed, ht⟩ := decodes.feedAll_eq hfs (s := new) h (decodes.next_nil new rfl)
  rw [hfeed, show t = new from congrArg mk ht]

/-- Two frames of the tests, cut inside the first header and inside the second. -/
theorem FrameDecoder.frames_of_chunks_split :
    deframer.feedAll new [[2, 0, 0, 0, 0], [0, 0, 0, 0, 0, 0, 0, 2, 111, 107, 3, 0, 0],
        [0, 0, 0, 0, 0, 3, 0, 0, 0, 0]] =
      ⟨[⟨.control, 0, 0, [111, 107]⟩, .empty .ack 3], none, new⟩ :=
  (frames_of_chunks [⟨.control, 0, 0, [111, 107]⟩, .empty .ack 3]
    (by
      intro f hf
      simp only [List.mem_cons, List.not_mem_nil, or_false] at hf
      rcases hf with rfl | rfl <;> exact ⟨by decide, by decide, by decide⟩)
    (by decide)).1

end Ember.EditorConn
