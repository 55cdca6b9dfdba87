import Tinydb.Protocol.Messages

/-! Frames on the wire (`protocol/frame.py`, `protocol/codec.py`).

A frame is the length of its payload, its type, its flags and the payload. A reader keeps the
beginning of a frame that has not arrived completely, so it does not matter where the
transport cuts the stream.
-/

namespace Tinydb.Protocol

open Lib Program List

def MAX_FRAME_LEN : ℕ := 0xFFFFFF

def HEADER_SIZE : ℕ := 4 + 1 + 1

def frameTooLong (length : ℕ) : Exc :=
  ⟨.protocolError, "frame length " ++ toString length ++ " exceeds " ++ toString MAX_FRAME_LEN ++ " (0xFFFFFF)"⟩

namespace Frame

def toBytes (frame : Frame) : Except Exc Bytes :=
  if MAX_FRAME_LEN < frame.payload.length then
    .error ⟨.protocolError, "frame payload too large: " ++ toString frame.payload.length ++ " bytes (max " ++
      toString MAX_FRAME_LEN ++ ")"⟩
  else .ok (packBE 4 frame.payload.length ++ ([frame.type, frame.flags] ++ frame.payload))

def fromBytes (data : Bytes) : Except Exc Frame :=
  if data.length < HEADER_SIZE then
    .error ⟨.protocolError, "frame header too short: need " ++ toString HEADER_SIZE ++
      " bytes, got " ++ toString data.length⟩
  else
    let length := unpackBE (slice data 0 4)
    if MAX_FRAME_LEN < length then .error (frameTooLong length)
    else if data.length < HEADER_SIZE + length then
      .error ⟨.protocolError, "frame truncated: header says " ++ toString length ++ " bytes, have " ++
        toString (data.length - HEADER_SIZE)⟩
    else do return ⟨← byteAt data 4, ← byteAt data 5, slice data HEADER_SIZE length⟩

end Frame

/-- A reader: what its stream still holds, if it has one, and what it has read or was fed. -/
structure FrameReader where
  stream : Option Bytes
  buffer : Bytes

namespace FrameReader

abbrev ReaderM := Program Exc FrameReader

def takeFrame (target : ℕ) : ReaderM Frame := do
  let parsed ← ofExcept (Frame.fromBytes ((← read).buffer.take target))
  modify fun reader => { reader with buffer := reader.buffer.drop target }
  return parsed

def readByte : ReaderM Bool := do
  match (← read).stream with
  | none => raise ⟨.incompleteFrameError, "no stream"⟩
  | some [] => return false
  | some (byte :: rest) =>
    modify fun reader => ⟨some rest, reader.buffer ++ [byte]⟩
    return true

/-- The loops of `read_frame`: read bytes until none is missing, or the stream ends. -/
def fill : (missing : ℕ) → ReaderM Bool
  | 0 => return true
  | missing + 1 => do if ← readByte then fill missing else return false

def bufferShort (have' need : ℕ) : Exc :=
  ⟨.incompleteFrameError, "buffer short on no-stream read_frame: have " ++ toString have' ++ ", need " ++ toString need⟩

def readFrame : ReaderM (Option Frame) := do
  let buffer := (← read).buffer
  if (← read).stream.isNone then
    if buffer.length < HEADER_SIZE then raise (bufferShort buffer.length HEADER_SIZE)
    else
      let length := unpackBE (slice buffer 0 4)
      if MAX_FRAME_LEN < length then raise (frameTooLong length)
      else if buffer.length < HEADER_SIZE + length then raise (bufferShort buffer.length (HEADER_SIZE + length))
      else return some (← takeFrame (HEADER_SIZE + length))
  else if ← fill (4 - buffer.length) then
    let length := unpackBE (slice (← read).buffer 0 4)
    if MAX_FRAME_LEN < length then raise (frameTooLong length)
    else if ← fill (HEADER_SIZE + length - (← read).buffer.length) then
      return some (← takeFrame (HEADER_SIZE + length))
    else raise ⟨.incompleteFrameError, "EOF while reading frame body"⟩
  else if (← read).buffer.isEmpty then return none
  else raise ⟨.incompleteFrameError, "EOF while reading frame length"⟩

def feed (data : Bytes) : ReaderM (Option Frame) := do
  modify fun reader => { reader with buffer := reader.buffer ++ data }
  let buffer := (← read).buffer
  if buffer.length < HEADER_SIZE then return none
  else
    let length := unpackBE (slice buffer 0 4)
    if MAX_FRAME_LEN < length then raise (frameTooLong length)
    else if buffer.length < HEADER_SIZE + length then return none
    else return some (← takeFrame (HEADER_SIZE + length))

def drain : (fuel : ℕ) → Bytes → ReaderM (List Frame)
  | 0, _ => raise ⟨.nontermination, "drain"⟩
  | fuel + 1, data => do
    match ← feed data with
    | none => return []
    | some frame => return frame :: (← drain fuel [])

def feedChunks (fuel : ℕ) : List Bytes → ReaderM (List Frame)
  | [] => return []
  | chunk :: rest => do return (← drain fuel chunk) ++ (← feedChunks fuel rest)

def readAll : (fuel : ℕ) → ReaderM (List Frame)
  | 0 => raise ⟨.nontermination, "read"⟩
  | fuel + 1 => do
    match ← readFrame with
    | none => return []
    | some frame => return frame :: (← readAll fuel)

end FrameReader

def wire (frame : Frame) : Bytes := packBE 4 frame.payload.length ++ ([frame.type, frame.flags] ++ frame.payload)

def Fits (frame : Frame) : Prop := frame.payload.length ≤ MAX_FRAME_LEN

variable {frame : Frame}

theorem length_wire (frame : Frame) : (wire frame).length = HEADER_SIZE + frame.payload.length := by
  simp [wire, HEADER_SIZE]
  omega

theorem toBytes_eq (fits : Fits frame) : frame.toBytes = .ok (wire frame) := if_neg (Nat.not_lt.mpr fits)

theorem length_field (fits : Fits frame) {held : Bytes} (behind : Bytes) (starts : held <+: wire frame ++ behind)
    (enough : 4 ≤ held.length) :
    unpackBE (slice held 0 4) = frame.payload.length := by
  obtain ⟨rest, same⟩ := starts
  have front : slice held 0 4 = packBE 4 frame.payload.length := by
    rw [← slice_append_left (b := rest) (by omega), same, wire, append_assoc]
    exact slice_front (packBE_length ..)
  rw [front]
  exact unpackBE_packBE (lt_of_le_of_lt fits (by decide))

theorem fromBytes_wire (fits : Fits frame) : Frame.fromBytes (wire frame) = .ok frame := by
  have size := length_wire frame
  have field : unpackBE (slice (wire frame) 0 4) = frame.payload.length :=
    length_field fits [] (List.prefix_append ..) (by rw [size, HEADER_SIZE]; omega)
  have payload : slice (wire frame) HEADER_SIZE frame.payload.length = frame.payload := by
    rw [wire, ← append_assoc, slice_skip _ HEADER_SIZE (by simp [HEADER_SIZE]) (le_refl _), Nat.sub_self, slice_all rfl]
  have type : byteAt (wire frame) 4 = .ok frame.type := by simp [byteAt, wire]
  have flags : byteAt (wire frame) 5 = .ok frame.flags := by simp [byteAt, wire, getElem?_append]
  rw [Frame.fromBytes, if_neg (by omega)]
  simp only [field, payload, type, flags]
  rw [if_neg (Nat.not_lt.mpr fits), if_neg (by omega)]
  rfl

namespace FrameReader

variable {stream : Option Bytes} {buffer data rest : Bytes} {frames : List Frame} {fuel : ℕ}

theorem returns_takeFrame (fits : Fits frame) :
    (takeFrame (HEADER_SIZE + frame.payload.length)).Returns ⟨stream, wire frame ++ rest⟩ frame ⟨stream, rest⟩ := by
  rw [← length_wire]
  simp [takeFrame, returns_bind, fromBytes_wire fits]

theorem returns_feed_whole (fits : Fits frame) (held : buffer ++ data = wire frame ++ rest) :
    (feed data).Returns ⟨stream, buffer⟩ (some frame) ⟨stream, rest⟩ := by
  have size : (wire frame ++ rest).length = HEADER_SIZE + frame.payload.length + rest.length := by
    rw [length_append, length_wire]
  have field : unpackBE (slice (wire frame ++ rest) 0 4) = frame.payload.length :=
    length_field fits rest List.prefix_rfl (by rw [size, HEADER_SIZE]; omega)
  rw [feed, returns_modify_bind, returns_read_bind]
  simp only [held, field]
  rw [if_neg (by omega), if_neg (Nat.not_lt.mpr fits), if_neg (by omega), returns_bind]
  exact ⟨frame, _, returns_takeFrame fits, returns_pure.mpr ⟨rfl, rfl⟩⟩

theorem returns_feed_torn (fits : Fits frame) (torn : Torn wire (buffer ++ data) frame) :
    (feed data).Returns ⟨stream, buffer⟩ none ⟨stream, buffer ++ data⟩ := by
  obtain ⟨starts, short⟩ := torn
  rw [length_wire] at short
  rw [feed, returns_modify_bind, returns_read_bind]
  dsimp only
  by_cases header : (buffer ++ data).length < HEADER_SIZE
  · rw [if_pos header]
    exact returns_pure.mpr ⟨rfl, rfl⟩
  · have field : unpackBE (slice (buffer ++ data) 0 4) = frame.payload.length := by
      refine length_field fits [] (by rwa [append_nil]) ?_
      rw [HEADER_SIZE] at header
      omega
    rw [if_neg header, field, if_neg (Nat.not_lt.mpr fits), if_pos short]
    exact returns_pure.mpr ⟨rfl, rfl⟩

theorem returns_feed_nil : (feed []).Returns ⟨stream, []⟩ none ⟨stream, []⟩ := returns_pure.mpr ⟨rfl, rfl⟩

def Unfinished (torn : Bytes) : Prop := torn = [] ∨ ∃ frame, Fits frame ∧ Torn wire torn frame

theorem returns_feed_unfinished (unfinished : Unfinished (buffer ++ data)) :
    (feed data).Returns ⟨stream, buffer⟩ none ⟨stream, buffer ++ data⟩ := by
  rcases unfinished with empty | ⟨frame, fits, torn⟩
  · obtain ⟨rfl, rfl⟩ := append_eq_nil_iff.mp empty
    exact returns_feed_nil
  · exact returns_feed_torn fits torn

theorem returns_drain {torn : Bytes} (fits : ∀ frame ∈ frames, Fits frame)
    (unfinished : Unfinished torn) (held : buffer ++ data = joined wire frames ++ torn)
    (enough : frames.length < fuel) :
    (drain fuel data).Returns ⟨stream, buffer⟩ frames ⟨stream, torn⟩ := by
  induction frames generalizing buffer data fuel with
  | nil =>
    obtain _ | fuel := fuel
    · simp at enough
    have none_whole : buffer ++ data = torn := held
    subst none_whole
    rw [drain, returns_bind]
    exact ⟨none, _, returns_feed_unfinished unfinished, returns_pure.mpr ⟨rfl, rfl⟩⟩
  | cons frame frames ih =>
    rw [length_cons] at enough
    obtain _ | fuel := fuel
    · omega
    obtain ⟨here, later⟩ := forall_mem_cons.mp fits
    rw [joined_cons, append_assoc] at held
    rw [drain, returns_bind]
    refine ⟨some frame, _, returns_feed_whole here held, ?_⟩
    rw [returns_bind]
    exact ⟨frames, _, ih later (append_nil _) (by omega), returns_pure.mpr ⟨rfl, rfl⟩⟩

theorem wire_pos (frame : Frame) : 0 < (wire frame).length := by
  rw [length_wire, HEADER_SIZE]
  omega

theorem returns_feedChunks {chunks : List Bytes} (fits : ∀ frame ∈ frames, Fits frame)
    (unread : whole wire buffer.length frames = []) (held : buffer ++ chunks.flatten = joined wire frames)
    (enough : frames.length < fuel) : (feedChunks fuel chunks).Returns ⟨stream, buffer⟩ frames ⟨stream, []⟩ := by
  induction chunks generalizing buffer frames with
  | nil =>
    rw [flatten_nil, append_nil] at held
    obtain rfl : frames = [] := by
      rw [← unread, held, whole_joined]
    exact returns_pure.mpr ⟨rfl, by rw [held]; rfl⟩
  | cons chunk rest ih =>
    rw [flatten_cons, ← append_assoc] at held
    obtain ⟨torn, cut, ends⟩ := @take_joined _ wire (buffer ++ chunk).length frames
    obtain ⟨late, split⟩ := @whole_front _ wire (buffer ++ chunk).length frames
    generalize whole wire (buffer ++ chunk).length frames = early at cut ends split
    subst split
    rw [← held, take_left] at cut
    obtain ⟨unfinished, still_unread⟩ : Unfinished torn ∧ whole wire torn.length late = [] := by
      rcases ends with rfl | ⟨next, later, same, isTorn⟩
      · exact ⟨.inl rfl, whole_zero wire_pos late⟩
      · obtain rfl := append_cancel_left same
        exact ⟨.inr ⟨next, fits next (by simp), isTorn⟩, whole_torn isTorn later⟩
    have remains : torn ++ rest.flatten = joined wire late := by
      rw [cut, joined_append, append_assoc] at held
      exact append_cancel_left held
    rw [length_append] at enough
    have drained : (drain fuel chunk).Returns ⟨stream, buffer⟩ early ⟨stream, torn⟩ :=
      returns_drain (fun frame member => fits frame (mem_append_left _ member)) unfinished cut (by omega)
    have others := ih (fun frame member => fits frame (mem_append_right _ member)) still_unread remains (by omega)
    rw [feedChunks, returns_bind]
    refine ⟨early, _, drained, ?_⟩
    rw [returns_bind]
    exact ⟨late, _, others, returns_pure.mpr ⟨rfl, rfl⟩⟩

theorem returns_fill (taken : Bytes) :
    (fill taken.length).Returns ⟨some (taken ++ rest), buffer⟩ true ⟨some rest, buffer ++ taken⟩ := by
  induction taken generalizing buffer with
  | nil => exact returns_pure.mpr ⟨rfl, by rw [append_nil]; rfl⟩
  | cons byte taken ih =>
    have read : readByte.Returns ⟨some (byte :: (taken ++ rest)), buffer⟩ true
      ⟨some (taken ++ rest), buffer ++ [byte]⟩ := by
      simp [readByte]
    rw [length_cons, fill, returns_bind]
    refine ⟨true, _, read, ?_⟩
    have filled := @ih (buffer ++ [byte])
    rwa [append_assoc, singleton_append] at filled

theorem returns_readFrame (fits : Fits frame) :
    readFrame.Returns ⟨some (wire frame ++ rest), []⟩ (some frame) ⟨some rest, []⟩ := by
  obtain ⟨first, second, split, four⟩ : ∃ first second, wire frame = first ++ second ∧ first.length = 4 :=
    ⟨packBE 4 frame.payload.length, _, rfl, packBE_length ..⟩
  have size : first.length + second.length = HEADER_SIZE + frame.payload.length := by
    rw [← length_wire, split, length_append]
  have field : unpackBE (slice first 0 4) = frame.payload.length :=
    length_field fits [] (by rw [split, append_nil]; exact List.prefix_append ..) four.ge
  have missing : HEADER_SIZE + frame.payload.length - first.length = second.length := by omega
  have header := @returns_fill [] (second ++ rest) first
  have body := @returns_fill first rest second
  have taken := @returns_takeFrame frame (some rest) [] fits
  rw [append_nil, split] at taken
  rw [readFrame, returns_read_bind, returns_read_bind, split, append_assoc]
  dsimp only [Option.isNone_some]
  rw [if_neg Bool.false_ne_true, returns_bind, length_nil, Nat.sub_zero, ← four]
  refine ⟨true, _, header, ?_⟩
  rw [if_pos rfl, returns_read_bind]
  dsimp only
  rw [nil_append, four, field, if_neg (Nat.not_lt.mpr fits), returns_read_bind]
  dsimp only
  rw [missing, returns_bind]
  refine ⟨true, _, body, ?_⟩
  rw [if_pos rfl, returns_bind]
  exact ⟨frame, _, taken, returns_pure.mpr ⟨rfl, rfl⟩⟩

theorem returns_readFrame_end : readFrame.Returns ⟨some [], []⟩ none ⟨some [], []⟩ := by
  simp [readFrame, fill, readByte, returns_bind]

theorem returns_readAll (fits : ∀ frame ∈ frames, Fits frame) (enough : frames.length < fuel) :
    (readAll fuel).Returns ⟨some (joined wire frames), []⟩ frames ⟨some [], []⟩ := by
  induction frames generalizing fuel with
  | nil =>
    obtain _ | fuel := fuel
    · simp at enough
    rw [readAll, returns_bind]
    exact ⟨none, _, returns_readFrame_end, returns_pure.mpr ⟨rfl, rfl⟩⟩
  | cons frame frames ih =>
    rw [length_cons] at enough
    obtain _ | fuel := fuel
    · omega
    obtain ⟨here, later⟩ := forall_mem_cons.mp fits
    rw [readAll, returns_bind]
    refine ⟨some frame, _, returns_readFrame here, ?_⟩
    rw [returns_bind]
    exact ⟨frames, _, ih later (by omega), returns_pure.mpr ⟨rfl, rfl⟩⟩

/-- The bytes of a list of frames can be made, and however they are cut they give these frames back, from the chunks
and from a stream, with nothing left over. -/
theorem reassembles_any_cut (frames : List Frame) (fits : ∀ frame ∈ frames, frame.payload.length ≤ MAX_FRAME_LEN) :
    ∃ wires, frames.mapM Frame.toBytes = .ok wires ∧ ∀ fuel, frames.length < fuel →
      (∀ chunks : List Bytes, chunks.flatten = wires.flatten →
        ∀ stream, (feedChunks fuel chunks).Returns ⟨stream, []⟩ frames ⟨stream, []⟩) ∧
      (readAll fuel).Returns ⟨some wires.flatten, []⟩ frames ⟨some [], []⟩ := by
  refine ⟨frames.map wire, ?_, fun fuel enough => ⟨fun chunks cut stream => ?_, returns_readAll fits enough⟩⟩
  · exact mapM_eq_ok fun frame member => toBytes_eq (fits frame member)
  · exact returns_feedChunks fits (whole_zero wire_pos frames) cut enough

/-- Two frames, cut in a length prefix, across their border and with an empty chunk. -/
theorem reassembles_any_cut_ping_quit :
    (feedChunks 3 [[0, 0], [0, 2, 0x30, 0, 1, 2, 0, 0], [], [0, 0, 0xFE, 0]]).Returns ⟨none, []⟩
      [⟨0x30, 0, [1, 2]⟩, ⟨0xFE, 0, []⟩] ⟨none, []⟩ := by
  obtain ⟨wires, made, all⟩ := reassembles_any_cut [⟨0x30, 0, [1, 2]⟩, ⟨0xFE, 0, []⟩] (by decide)
  obtain rfl : [[0, 0, 0, 2, 0x30, 0, 1, 2], [0, 0, 0, 0, 0xFE, 0]] = wires := Except.ok.inj made
  exact (all 3 (by decide)).1 _ rfl none

end FrameReader

end Tinydb.Protocol
