/-
# The frame decoder

`FrameDecoder::PushData` and `FrameDecoder::Restart` in `src/FrameDecoder.cpp`.

The decoder is fed pieces of the received stream and calls `onPacket` once for
every frame that a piece completes.  Its state is the bytes of the unfinished
frame together with two numbers read off them, so it is a function of those
bytes alone (`FrameDecoder.ofHeld`), and one call of `PushData` cuts the held
bytes followed by the new ones into whole frames and a rest
(`pushData_eq_cut`, with the cut of `ICon7.Lib.Delimited`).

`_writable_buffer` is modelled by its contents.  `Restart` and the hand-out of a
frame also choose which allocation backs the next one; the buffer is cleared in
either case, so the choice shows neither in the frames nor in the held bytes.
-/

import ICon7.Framing.Header
import ICon7.Lib.Delimited

namespace ICon7
namespace Framing

/-- `FrameDecoder`. -/
structure FrameDecoder where
  writableBuffer : List UInt8
  headerSize : ℕ
  frameSize : ℕ
  deriving DecidableEq, Repr

/-- The arguments of one call of `onPacket`. -/
structure Packet where
  buffer : List UInt8
  headerSize : ℕ
  deriving DecidableEq, Repr

/-- A piece of received data: its length is the `uint32_t _length` of `PushData`. -/
abbrev Chunk := { data : List UInt8 // data.length < 2 ^ 32 }

/-- What is true of every packet: its header length is read off its first byte,
its length off its header, and there is at least one byte after the header. -/
structure Packet.Exact (p : Packet) : Prop where
  headerSize_eq : p.buffer.head?.map getPacketHeaderSize = some p.headerSize
  headerSize_lt : p.headerSize < p.buffer.length
  length_eq : ∃ bodySize, getPacketBodySize p.buffer p.headerSize = some bodySize ∧
    p.buffer.length = p.headerSize + bodySize

namespace FrameDecoder

/-- `Restart`. -/
def restart (d : FrameDecoder) : FrameDecoder :=
  { d with writableBuffer := [], headerSize := 0, frameSize := 0 }

/-- `FrameDecoder()`. -/
def fresh : FrameDecoder := ⟨[], 0, 0⟩

/-- The first byte of a frame gives the header length.  `none` is one of the two
assertions on the buffer size. -/
def beginHeader (d : FrameDecoder) (data : List UInt8) : Option (FrameDecoder × List UInt8) :=
  if d.headerSize = 0 then
    match d.writableBuffer, data with
    | [], b :: data => some (⟨[b], getPacketHeaderSize b, d.frameSize⟩, data)
    | _, _ => none
  else if d.writableBuffer.length = 0 then none
  else some (d, data)

/-- Append `bytes` bytes of `data` and skip them. -/
def take (d : FrameDecoder) (data : List UInt8) (bytes : ℕ) : FrameDecoder × List UInt8 :=
  ({ d with writableBuffer := d.writableBuffer ++ data.take bytes }, data.drop bytes)

/-- The rest of the header, as far as there is data. -/
def fillHeader (d : FrameDecoder) (data : List UInt8) : FrameDecoder × List UInt8 :=
  if d.writableBuffer.length < d.headerSize then
    d.take data (min data.length (d.headerSize - d.writableBuffer.length))
  else (d, data)

/-- The frame length, once the header is complete.  `none` is an assertion of
`GetPacketBodySize` or of `reserve`, or the branch that is logged as one that
should never happen. -/
def sizeFrame (d : FrameDecoder) : Option FrameDecoder :=
  if d.writableBuffer.length = d.headerSize then do
    let bodySize ← getPacketBodySize d.writableBuffer d.headerSize
    guard (d.headerSize + bodySize < 1 <<< 30)
    return { d with frameSize := d.headerSize + bodySize }
  else if d.frameSize = 0 then none
  else some d

/-- The body, as far as there is data.  `none` is a branch that is logged as one
that should never happen. -/
def fillBody (d : FrameDecoder) (data : List UInt8) : Option (FrameDecoder × List UInt8) :=
  if d.writableBuffer.length < d.frameSize then
    let bytes := min (d.frameSize - d.writableBuffer.length) data.length
    if d.frameSize < bytes then none else some (d.take data bytes)
  else none

/-- One round of the main loop of `PushData`, up to the frame that it completes: the decoder, the data
that is left and whether there is a frame.  A `break` leaves no data. -/
def round (d : FrameDecoder) (data : List UInt8) : Option (FrameDecoder × List UInt8 × Bool) := do
  let (d, data) ← d.beginHeader data
  let (d, data) := d.fillHeader data
  if d.writableBuffer.length < d.headerSize then
    guard (data.length = 0)
    return (d, [], false)
  else
    let d ← d.sizeFrame
    let (d, data) ← d.fillBody data
    if d.writableBuffer.length = d.frameSize then return (d, data, true)
    else if d.frameSize < d.writableBuffer.length then none
    else return (d, [], false)

/-- The main loop of `PushData`, at most `fuel` rounds of it, with the packets
passed to `onPacket`.  `none` is a failed assertion, the `throw`, a branch that
is logged as one that should never happen, or a loop that does not end. -/
def pushLoop : ℕ → FrameDecoder → List UInt8 → Option (FrameDecoder × List Packet)
  | _, d, [] => some (d, [])
  | 0, _, _ :: _ => none
  | fuel + 1, d, data => do
    let (d, data) ← d.beginHeader data
    let (d, data) := d.fillHeader data
    if d.writableBuffer.length < d.headerSize then
      guard (data.length = 0)
      return (d, [])
    else
      let d ← d.sizeFrame
      let (d, data) ← d.fillBody data
      if d.writableBuffer.length = d.frameSize then
        let r ← pushLoop fuel d.restart data
        return (r.1, ⟨d.writableBuffer, d.headerSize⟩ :: r.2)
      else if d.frameSize < d.writableBuffer.length then none
      else return (d, [])

/-- `TMP_LEN` of `PushData`. -/
def TMP_LEN : ℕ := 1 <<< 20

/-- `PushData`, at most `fuel` rounds of its first loop: a length of `2 ^ 31` or
more is negative as an `int`, and the piece is pushed `TMP_LEN` bytes at a time
until it is not. -/
def pushPieces (fuel : ℕ) (d : FrameDecoder) (data : List UInt8) :
    Option (FrameDecoder × List Packet) :=
  if data.length < 1 <<< 31 then pushLoop data.length d data
  else
    match fuel with
    | 0 => none
    | fuel + 1 => do
      guard (TMP_LEN < data.length)
      let r ← pushLoop TMP_LEN d (data.take TMP_LEN)
      let t ← pushPieces fuel r.1 (data.drop TMP_LEN)
      return (t.1, r.2 ++ t.2)

/-- `PushData`. -/
def pushData (d : FrameDecoder) (chunk : Chunk) : Option (FrameDecoder × List Packet) :=
  pushPieces (2 ^ 12) d chunk.1

/-- `PushData` on each of the chunks in turn. -/
def pushAll : FrameDecoder → List Chunk → Option (FrameDecoder × List Packet)
  | d, [] => some (d, [])
  | d, chunk :: chunks => do
    let r ← d.pushData chunk
    let t ← pushAll r.1 chunks
    return (t.1, r.2 ++ t.2)

/-! ### Frames of a byte stream -/

/-- The length of the frame a stream begins with, once its header is there. -/
def frameLen (s : List UInt8) : Option ℕ := do
  let b ← s.head?
  guard (getPacketHeaderSize b ≤ s.length)
  let bodySize ← getPacketBodySize s (getPacketHeaderSize b)
  return getPacketHeaderSize b + bodySize

theorem frameLen_cons_of_lt {b : UInt8} {t : List UInt8}
    (h : (b :: t).length < getPacketHeaderSize b) : frameLen (b :: t) = none := by
  simp only [frameLen, List.head?_cons, guard, Option.bind_eq_bind, Option.bind_some,
    if_neg (Nat.not_le.2 h)]
  rfl

/-- With its header complete, a frame is longer than the header and far below the
capacity limit of a buffer. -/
theorem frameLen_cons_of_le {b : UInt8} {t : List UInt8}
    (h : getPacketHeaderSize b ≤ (b :: t).length) :
    ∃ n, getPacketBodySize (b :: t) (getPacketHeaderSize b) = some n ∧ 1 ≤ n ∧ n ≤ 2 ^ 28 ∧
      frameLen (b :: t) = some (getPacketHeaderSize b + n) := by
  obtain ⟨n, hn, h1, h2⟩ := getPacketBodySize_bounds (getPacketHeaderSize_bounds b) h
  refine ⟨n, hn, h1, h2, ?_⟩
  simp only [frameLen, List.head?_cons, guard, if_pos h, hn, Option.bind_eq_bind, Option.bind_some,
    Option.pure_def]

/-- Frames delimit themselves: the header says how long the frame is, and what
follows the header does not change that. -/
def delimiter : Lib.Delimiter UInt8 where
  len := frameLen
  len_pos := by
    intro s n h
    cases s with
    | nil => simp [frameLen] at h
    | cons b t =>
      by_cases hlt : (b :: t).length < getPacketHeaderSize b
      · rw [frameLen_cons_of_lt hlt] at h; simp at h
      · obtain ⟨m, -, h1, -, hm⟩ := frameLen_cons_of_le (Nat.not_lt.1 hlt)
        rw [hm, Option.some.injEq] at h
        omega
  len_append := by
    intro s n u h
    cases s with
    | nil => simp [frameLen] at h
    | cons b t =>
      by_cases hlt : (b :: t).length < getPacketHeaderSize b
      · rw [frameLen_cons_of_lt hlt] at h; simp at h
      · obtain ⟨m, hm, -, -, hlen⟩ := frameLen_cons_of_le (Nat.not_lt.1 hlt)
        have hle : getPacketHeaderSize b ≤ (b :: (t ++ u)).length := by
          simp only [List.length_cons, List.length_append] at hlt ⊢; omega
        obtain ⟨m', hm', -, -, hlen'⟩ := frameLen_cons_of_le hle
        rw [← List.cons_append, getPacketBodySize_append u (Nat.not_lt.1 hlt), hm,
          Option.some.injEq] at hm'
        rw [← h, hlen, List.cons_append, hlen', hm']

@[simp] theorem delimiter_len (s : List UInt8) : delimiter.len s = frameLen s := rfl

/-- The decoder that holds the bytes `held` of an unfinished frame. -/
def ofHeld : List UInt8 → FrameDecoder
  | [] => fresh
  | b :: t => ⟨b :: t, getPacketHeaderSize b, (frameLen (b :: t)).getD 0⟩

/-- The packet that a whole frame is passed on as. -/
def packetOf (frame : List UInt8) : Packet :=
  ⟨frame, (frame.head?.map getPacketHeaderSize).getD 0⟩

/-! ### One round of the loop -/

/-- Taking `k` bytes off a stream of which `m` are taken leaves `m + k` taken. -/
theorem take_take (s : List UInt8) (m k headerSize frameSize : ℕ) :
    take ⟨s.take m, headerSize, frameSize⟩ (s.drop m) k =
      (⟨s.take (m + k), headerSize, frameSize⟩, s.drop (m + k)) := by
  simp only [take, List.drop_drop, List.take_add]

theorem fillHeader_take {s : List UInt8} {m : ℕ} (hm : m ≤ s.length) (headerSize frameSize : ℕ) :
    fillHeader ⟨s.take m, headerSize, frameSize⟩ (s.drop m) =
      (⟨s.take (max m (min headerSize s.length)), headerSize, frameSize⟩,
        s.drop (max m (min headerSize s.length))) := by
  have hlen : (s.take m).length = m := by simpa using hm
  unfold fillHeader
  simp only [hlen, List.length_drop]
  split_ifs with h
  · rw [take_take, show m + min (s.length - m) (headerSize - m) = max m (min headerSize s.length)
      by omega]
  · rw [show max m (min headerSize s.length) = m by omega]

/-- The first part of a round: the header is taken as far as there is data. -/
theorem header_round {held data : List UInt8} (hdata : data ≠ []) {b : UInt8} {t : List UInt8}
    (hs : held ++ data = b :: t) :
    ∃ r, (ofHeld held).beginHeader data = some r ∧
      r.1.fillHeader r.2 =
        (⟨(b :: t).take (max held.length (min (getPacketHeaderSize b) (b :: t).length)),
            getPacketHeaderSize b, (frameLen held).getD 0⟩,
          (b :: t).drop (max held.length (min (getPacketHeaderSize b) (b :: t).length))) := by
  have hpos := (getPacketHeaderSize_bounds b).1
  cases held with
  | nil =>
    obtain rfl : data = b :: t := hs
    refine ⟨(⟨[b], getPacketHeaderSize b, 0⟩, t), rfl, ?_⟩
    have h := fillHeader_take (s := b :: t) (m := 1) (by simp) (getPacketHeaderSize b) 0
    rw [show max 1 (min (getPacketHeaderSize b) (b :: t).length) =
      max ([] : List UInt8).length (min (getPacketHeaderSize b) (b :: t).length) by simp; omega] at h
    exact h
  | cons c u =>
    obtain ⟨rfl, rfl⟩ : c = b ∧ u ++ data = t := by simpa using hs
    refine ⟨(ofHeld (c :: u), data), ?_, ?_⟩
    · have h0 : getPacketHeaderSize c ≠ 0 := by omega
      simp [beginHeader, ofHeld, h0]
    · have h := fillHeader_take (s := (c :: u) ++ data) (m := (c :: u).length) (by simp)
        (getPacketHeaderSize c) ((frameLen (c :: u)).getD 0)
      rw [List.take_left, List.drop_left] at h
      exact h

/-- The second part of a round: with the header there, the frame is taken as far
as there is data. -/
theorem body_round {s : List UInt8} {m headerSize bodySize : ℕ} (frameSize : ℕ)
    (hbody : getPacketBodySize s headerSize = some bodySize) (hpos : 1 ≤ bodySize)
    (h30 : headerSize + bodySize < 2 ^ 30) (hm : m ≤ s.length)
    (hlt : m < headerSize + bodySize) (hf : m ≠ headerSize → frameSize = headerSize + bodySize) :
    ∃ d, sizeFrame ⟨s.take m, headerSize, frameSize⟩ = some d ∧
      d.fillBody (s.drop m) =
        some (⟨s.take (min (headerSize + bodySize) s.length), headerSize, headerSize + bodySize⟩,
          s.drop (min (headerSize + bodySize) s.length)) := by
  have hlen : (s.take m).length = m := by simpa using hm
  have hsize : sizeFrame ⟨s.take m, headerSize, frameSize⟩ =
      some ⟨s.take m, headerSize, headerSize + bodySize⟩ := by
    unfold sizeFrame
    simp only [hlen]
    split_ifs with h1 h2
    · have htake : getPacketBodySize (s.take m) headerSize = some bodySize := by
        rw [← getPacketBodySize_append (s.drop m) (by omega), List.take_append_drop, hbody]
      simp only [htake, guard, Nat.one_shiftLeft, h30, if_true, Option.bind_eq_bind,
        Option.bind_some, Option.pure_def]
    · have := hf h1; omega
    · rw [hf h1]
  refine ⟨_, hsize, ?_⟩
  unfold fillBody
  simp only [hlen, List.length_drop]
  rw [if_pos hlt, if_neg (by omega), take_take,
    show m + min (headerSize + bodySize - m) (s.length - m) =
      min (headerSize + bodySize) s.length by omega]

/-- What more data leaves unknown was unknown before. -/
theorem frameLen_of_append_eq_none {held data : List UInt8} (h : frameLen (held ++ data) = none) :
    frameLen held = none := by
  by_contra hne
  obtain ⟨n, hn⟩ := Option.ne_none_iff_exists'.1 hne
  have happ := delimiter.len_append data hn
  rw [delimiter_len, h] at happ
  cases happ

/-- Once the header is there, more data does not change the length of the frame. -/
theorem frameLen_append_of_le {held data t : List UInt8} {b : UInt8} (hs : held ++ data = b :: t)
    (hlong : getPacketHeaderSize b ≤ held.length) : frameLen (held ++ data) = frameLen held := by
  have hpos := (getPacketHeaderSize_bounds b).1
  obtain ⟨c, u, rfl⟩ := List.exists_cons_of_ne_nil (List.ne_nil_of_length_pos (hpos.trans hlong))
  obtain ⟨rfl, -⟩ : c = b ∧ u ++ data = t := by simpa using hs
  obtain ⟨k, -, -, -, hk⟩ := frameLen_cons_of_le hlong
  rw [hk]
  exact delimiter.len_append data hk

/-- **One round cuts one frame.**  From a decoder that holds part of a frame, a round either takes all
the data without completing the frame, or completes it and leaves the data behind it. -/
theorem round_spec {held data : List UInt8} (hdata : data ≠ [])
    (hheld : ∀ n, frameLen held = some n → held.length < n) :
    (ofHeld held).round data =
      match frameLen (held ++ data) with
      | none => some (ofHeld (held ++ data), [], false)
      | some n =>
        if n ≤ (held ++ data).length then
          some (⟨(held ++ data).take n, (packetOf ((held ++ data).take n)).headerSize, n⟩,
            (held ++ data).drop n, true)
        else some (ofHeld (held ++ data), [], false) := by
  obtain ⟨b, t, hs⟩ : ∃ b t, held ++ data = b :: t := List.exists_cons_of_ne_nil (by simp [hdata])
  have hlen : held.length ≤ (b :: t).length := by rw [← hs]; simp
  have hpos := (getPacketHeaderSize_bounds b).1
  obtain ⟨r, hr, hfill⟩ := header_round hdata hs
  rw [hs, round, hr]
  simp only [Option.bind_eq_bind, Option.bind_some, Option.pure_def, hfill]
  by_cases hlt : (b :: t).length < getPacketHeaderSize b
  · have hnone : frameLen held = none :=
      frameLen_of_append_eq_none (by rw [hs, frameLen_cons_of_lt hlt])
    have hmax : max held.length (min (getPacketHeaderSize b) (b :: t).length) = (b :: t).length := by
      omega
    rw [frameLen_cons_of_lt hlt, hmax, List.take_length, List.drop_length, hnone]
    simp only [hlt, if_true, List.length_nil, guard, Option.pure_def, Option.bind_some, ofHeld,
      frameLen_cons_of_lt hlt]
  · obtain ⟨n, hbody, h1, h28, hframe⟩ := frameLen_cons_of_le (Nat.not_lt.1 hlt)
    have hb4 := (getPacketHeaderSize_bounds b).2
    set hs' := getPacketHeaderSize b with hdef
    set m := max held.length (min hs' (b :: t).length) with hmdef
    have hheldlen : hs' < m → frameLen held = some (hs' + n) := by
      intro hm
      rw [← frameLen_append_of_le hs (by omega), hs, hframe]
    have hm1 : hs' ≤ m := by omega
    have hm2 : m ≤ (b :: t).length := by omega
    have hm3 : m < hs' + n := by
      by_cases hm : hs' < m
      · have := hheld _ (hheldlen hm)
        omega
      · omega
    obtain ⟨d, hd, hbodyEq⟩ := body_round ((frameLen held).getD 0) hbody h1
      (by omega) hm2 hm3 (fun hne => by rw [hheldlen (by omega)]; rfl)
    have hnot : ¬((b :: t).take m).length < hs' := by
      rw [List.length_take]; omega
    rw [if_neg hnot, hd, hframe]
    simp only [Option.bind_some, hbodyEq]
    by_cases hle : hs' + n ≤ (b :: t).length
    · rw [Nat.min_eq_left hle, if_pos (by rw [List.length_take]; omega), if_pos hle]
      obtain ⟨k, hk⟩ : ∃ k, hs' + n = k + 1 := ⟨hs' + n - 1, by omega⟩
      have hpacket : packetOf ((b :: t).take (hs' + n)) = ⟨(b :: t).take (hs' + n), hs'⟩ := by
        rw [hk]; rfl
      rw [hpacket]
    · rw [Nat.min_eq_right (by omega), if_neg (by rw [List.length_take]; omega),
        if_neg (by rw [List.length_take]; omega), if_neg hle, List.take_length]
      simp only [ofHeld, hframe, Option.getD_some, ← hdef]

/-- The loop is its rounds. -/
theorem pushLoop_succ {d : FrameDecoder} {data : List UInt8} (hdata : data ≠ []) (fuel : ℕ) :
    pushLoop (fuel + 1) d data = do
      let (d, rest, complete) ← d.round data
      if complete then
        let r ← pushLoop fuel d.restart rest
        return (r.1, ⟨d.writableBuffer, d.headerSize⟩ :: r.2)
      else return (d, []) := by
  rw [pushLoop.eq_3 _ _ _ hdata, round]
  cases d.beginHeader data with
  | none => rfl
  | some r =>
    simp only [Option.bind_eq_bind, Option.bind_some, Option.pure_def]
    split_ifs
    · cases (guard ((r.1.fillHeader r.2).2.length = 0) : Option Unit) <;> rfl
    · cases (r.1.fillHeader r.2).1.sizeFrame with
      | none => rfl
      | some d' =>
        simp only [Option.bind_some]
        cases d'.fillBody (r.1.fillHeader r.2).2 with
        | none => rfl
        | some q =>
          simp only [Option.bind_some]
          split_ifs <;> rfl

/-- The loop goes on behind the frame that a round completes. -/
theorem pushLoop_round {held data : List UInt8} (hdata : data ≠ [])
    (hheld : ∀ n, frameLen held = some n → held.length < n) (fuel : ℕ) :
    pushLoop (fuel + 1) (ofHeld held) data =
      match frameLen (held ++ data) with
      | none => some (ofHeld (held ++ data), [])
      | some n =>
        if n ≤ (held ++ data).length then do
          let r ← pushLoop fuel fresh ((held ++ data).drop n)
          return (r.1, packetOf ((held ++ data).take n) :: r.2)
        else some (ofHeld (held ++ data), []) := by
  rw [pushLoop_succ hdata, round_spec hdata hheld]
  cases frameLen (held ++ data) with
  | none => rfl
  | some n =>
    simp only
    split_ifs
    · rfl
    · rfl

/-! ### Whole calls -/

/-- The state in which a decoder is left after the bytes `s`, and what it has
passed on: the rest of the cut of `s`, and its frames. -/
def cut (s : List UInt8) : FrameDecoder × List Packet :=
  (ofHeld (delimiter.parse s).2, (delimiter.parse s).1.map packetOf)

/-- Cutting goes on from the rest. -/
theorem cut_append (s t : List UInt8) :
    cut (s ++ t) =
      ((cut ((delimiter.parse s).2 ++ t)).1, (cut s).2 ++ (cut ((delimiter.parse s).2 ++ t)).2) := by
  simp only [cut, Lib.Delimiter.parse_append s t, List.map_append]

/-- A frame that is not complete yet is longer than what is held of it. -/
theorem length_lt_frameLen_append {held data : List UInt8} {n : ℕ}
    (hheld : ∀ n, frameLen held = some n → held.length < n)
    (hn : frameLen (held ++ data) = some n) : held.length < n := by
  cases held with
  | nil => exact delimiter.len_pos hn
  | cons b t =>
    by_cases hlt : (b :: t).length < getPacketHeaderSize b
    · by_cases hlt' : (b :: (t ++ data)).length < getPacketHeaderSize b
      · rw [List.cons_append, frameLen_cons_of_lt hlt'] at hn; simp at hn
      · obtain ⟨m, -, h1, -, hm⟩ := frameLen_cons_of_le (Nat.not_lt.1 hlt')
        rw [List.cons_append, hm, Option.some.injEq] at hn
        omega
    · obtain ⟨m, -, -, -, hm⟩ := frameLen_cons_of_le (Nat.not_lt.1 hlt)
      have happ := delimiter.len_append data hm
      rw [delimiter_len, hn, Option.some.injEq] at happ
      rw [happ]
      exact hheld _ hm

/-- **The main loop cuts the stream.**  With a round for every byte the loop ends,
fails nowhere, and leaves the decoder with the rest of the held bytes followed by
the data. -/
theorem pushLoop_eq_cut (held data : List UInt8) {fuel : ℕ} (hfuel : data.length ≤ fuel)
    (hheld : ∀ n, frameLen held = some n → held.length < n) :
    pushLoop fuel (ofHeld held) data = some (cut (held ++ data)) := by
  induction fuel generalizing held data with
  | zero =>
    obtain rfl := List.eq_nil_of_length_eq_zero (Nat.le_zero.1 hfuel)
    rw [pushLoop, List.append_nil, cut, Lib.Delimiter.parse_of_lt hheld]
    rfl
  | succ fuel ih =>
    by_cases hdata : data = []
    · subst hdata
      rw [pushLoop, List.append_nil, cut, Lib.Delimiter.parse_of_lt hheld]
      rfl
    · rw [pushLoop_round hdata hheld]
      split
      · rename_i hnone
        rw [cut, Lib.Delimiter.parse_of_lt (by simp [hnone])]
        rfl
      · rename_i n hn
        split_ifs with hle
        · have hlong := length_lt_frameLen_append hheld hn
          have hdrop : ((held ++ data).drop n).length ≤ fuel := by
            rw [List.length_drop, List.length_append]; omega
          have hfresh := ih [] _ hdrop (fun m hm => delimiter.len_pos hm)
          rw [List.nil_append] at hfresh
          rw [show fresh = ofHeld [] from rfl, hfresh]
          simp only [cut, Lib.Delimiter.parse_of_le (D := delimiter) hn hle, List.map_cons, Option.bind_eq_bind,
            Option.bind_some, Option.pure_def]
        · rw [cut, Lib.Delimiter.parse_of_lt]
          · rfl
          · intro m hm
            rw [delimiter_len, hn, Option.some.injEq] at hm
            omega

/-- **`PushData` cuts the stream**, however long the chunk is: pushing it in pieces
of `TMP_LEN` bytes goes on from the rest each time. -/
theorem pushPieces_eq_cut (held data : List UInt8) {fuel : ℕ}
    (hfuel : data.length < 2 ^ 31 + fuel * 2 ^ 20)
    (hheld : ∀ n, frameLen held = some n → held.length < n) :
    pushPieces fuel (ofHeld held) data = some (cut (held ++ data)) := by
  induction fuel generalizing held data with
  | zero =>
    rw [pushPieces, if_pos (by rw [Nat.one_shiftLeft]; omega), pushLoop_eq_cut _ _ le_rfl hheld]
  | succ fuel ih =>
    rw [pushPieces]
    split_ifs with hlt
    · exact pushLoop_eq_cut _ _ le_rfl hheld
    · rw [Nat.one_shiftLeft] at hlt
      have hlong : TMP_LEN < data.length := by rw [TMP_LEN, Nat.one_shiftLeft]; omega
      have htake : (data.take TMP_LEN).length ≤ TMP_LEN := List.length_take_le _ _
      have hdrop : (data.drop TMP_LEN).length < 2 ^ 31 + fuel * 2 ^ 20 := by
        rw [List.length_drop, TMP_LEN, Nat.one_shiftLeft]; omega
      have hrest := ih (delimiter.parse (held ++ data.take TMP_LEN)).2 _ hdrop
        (fun n hn => Lib.Delimiter.parse_rest_lt _ hn)
      simp only [guard, hlong, if_true, pushLoop_eq_cut _ _ htake hheld, Option.bind_eq_bind,
        Option.bind_some, Option.pure_def]
      rw [show (cut (held ++ data.take TMP_LEN)).1 =
        ofHeld (delimiter.parse (held ++ data.take TMP_LEN)).2 from rfl, hrest]
      conv_rhs => rw [← List.take_append_drop TMP_LEN data, ← List.append_assoc, cut_append]
      rfl

theorem pushData_eq_cut (held : List UInt8) (chunk : Chunk)
    (hheld : ∀ n, frameLen held = some n → held.length < n) :
    (ofHeld held).pushData chunk = some (cut (held ++ chunk.1)) :=
  pushPieces_eq_cut _ _ (by have := chunk.2; omega) hheld

/-- **Any run of `PushData` cuts the concatenation of its chunks.** -/
theorem pushAll_eq_cut (held : List UInt8) (chunks : List Chunk)
    (hheld : ∀ n, frameLen held = some n → held.length < n) :
    pushAll (ofHeld held) chunks = some (cut (held ++ (chunks.map Subtype.val).flatten)) := by
  induction chunks generalizing held with
  | nil =>
    rw [pushAll, List.map_nil, List.flatten_nil, List.append_nil, cut,
      Lib.Delimiter.parse_of_lt hheld]
    rfl
  | cons chunk chunks ih =>
    have hrest := ih (delimiter.parse (held ++ chunk.1)).2
      fun n hn => Lib.Delimiter.parse_rest_lt _ hn
    simp only [pushAll, pushData_eq_cut held chunk hheld, Option.bind_eq_bind, Option.bind_some,
      Option.pure_def]
    rw [show (cut (held ++ chunk.1)).1 = ofHeld (delimiter.parse (held ++ chunk.1)).2 from rfl,
      hrest, List.map_cons, List.flatten_cons]
    conv_rhs => rw [← List.append_assoc, cut_append]
    rfl

/-! ### What a decoder has passed on and what it holds -/

/-- A frame whose stream says its length is passed on as an exact packet. -/
theorem packetOf_exact {f t : List UInt8} (h : frameLen (f ++ t) = some f.length) :
    (packetOf f).Exact := by
  cases f with
  | nil => exact absurd (delimiter.len_pos h) (by simp)
  | cons b f =>
    by_cases hlt : (b :: (f ++ t)).length < getPacketHeaderSize b
    · rw [List.cons_append, frameLen_cons_of_lt hlt] at h
      cases h
    · obtain ⟨n, hn, h1, -, hlen⟩ := frameLen_cons_of_le (Nat.not_lt.1 hlt)
      rw [List.cons_append, hlen, Option.some.injEq] at h
      have hhead : getPacketHeaderSize b ≤ (b :: f).length := by omega
      rw [← List.cons_append, getPacketBodySize_append t hhead] at hn
      exact ⟨rfl, show getPacketHeaderSize b < (b :: f).length by omega, n, hn, h.symm⟩

@[simp] theorem ofHeld_writableBuffer (held : List UInt8) : (ofHeld held).writableBuffer = held := by
  cases held with
  | nil => rfl
  | cons b t => rfl

/-- Every packet of a cut is exact. -/
theorem cut_exact {s : List UInt8} {p : Packet} (hp : p ∈ (cut s).2) : p.Exact := by
  obtain ⟨f, hf, rfl⟩ := List.mem_map.1 hp
  obtain ⟨t, ht⟩ := Lib.Delimiter.len_append_of_mem_parse _ hf
  exact packetOf_exact ht

/-- The packets of a cut and the held bytes are the bytes that were cut. -/
theorem cut_flatten (s : List UInt8) :
    ((cut s).2.map Packet.buffer).flatten ++ (cut s).1.writableBuffer = s := by
  have hbuffers : ((delimiter.parse s).1.map packetOf).map Packet.buffer = (delimiter.parse s).1 := by
    rw [List.map_map]
    exact List.map_id _
  rw [cut, hbuffers, ofHeld_writableBuffer, Lib.Delimiter.parse_flatten]

/-- **Decoding does not depend on chunking.**  After any pushes from a fresh
decoder, bytes pushed at once and pushed in consecutive pieces give the same
packets and leave the same decoder; no push fails; the packets since the start
and the held bytes are the bytes pushed since the start; and every packet is its
header and the body length read off it, which is at least one. -/
theorem pushAll_eq_pushData (before : List Chunk) (d : Chunk) (pieces : List Chunk)
    (hsplit : (pieces.map Subtype.val).flatten = d.1) :
    ∃ dec emitted dec' packets,
      pushAll fresh before = some (dec, emitted) ∧
      dec.pushData d = some (dec', packets) ∧
      pushAll dec pieces = some (dec', packets) ∧
      ((emitted ++ packets).map Packet.buffer).flatten ++ dec'.writableBuffer =
        (before.map Subtype.val).flatten ++ d.1 ∧
      ∀ p ∈ emitted ++ packets, p.Exact := by
  have hstart : ∀ n, frameLen [] = some n → ([] : List UInt8).length < n := by simp [frameLen]
  set s := (before.map Subtype.val).flatten
  have hheld : ∀ n, frameLen (delimiter.parse s).2 = some n → (delimiter.parse s).2.length < n :=
    fun n hn => Lib.Delimiter.parse_rest_lt _ hn
  have hdec : (cut (s ++ d.1)).1 = (cut ((delimiter.parse s).2 ++ d.1)).1 := by rw [cut_append]
  have hpackets : (cut (s ++ d.1)).2 = (cut s).2 ++ (cut ((delimiter.parse s).2 ++ d.1)).2 := by
    rw [cut_append]
  refine ⟨(cut s).1, (cut s).2, (cut ((delimiter.parse s).2 ++ d.1)).1,
    (cut ((delimiter.parse s).2 ++ d.1)).2, pushAll_eq_cut [] before hstart,
    pushData_eq_cut _ d hheld, ?_, ?_, ?_⟩
  · rw [← hsplit]
    exact pushAll_eq_cut _ pieces hheld
  · rw [← hpackets, ← hdec]
    exact cut_flatten _
  · intro p hp
    rw [← hpackets] at hp
    exact cut_exact hp

/-- A four-byte header in front of a one-byte body, cut inside the header, with the
first byte of an earlier frame pushed before. -/
theorem pushAll_eq_pushData_long_header :
    ∃ dec emitted dec' packets,
      pushAll fresh [⟨[0x00], by decide⟩] = some (dec, emitted) ∧
      dec.pushData ⟨[0x78, 0x03, 0x00, 0x00, 0x00, 0x61], by decide⟩ = some (dec', packets) ∧
      pushAll dec [⟨[0x78, 0x03], by decide⟩, ⟨[0x00, 0x00, 0x00, 0x61], by decide⟩] =
        some (dec', packets) ∧
      ((emitted ++ packets).map Packet.buffer).flatten ++ dec'.writableBuffer =
        [0x00, 0x78, 0x03, 0x00, 0x00, 0x00, 0x61] ∧
      ∀ p ∈ emitted ++ packets, p.Exact :=
  pushAll_eq_pushData [⟨[0x00], by decide⟩] ⟨[0x78, 0x03, 0x00, 0x00, 0x00, 0x61], by decide⟩
    [⟨[0x78, 0x03], by decide⟩, ⟨[0x00, 0x00, 0x00, 0x61], by decide⟩] rfl

end FrameDecoder
end Framing
end ICon7
