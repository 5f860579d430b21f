/-
# The frame decoder on the heap

A round of `FrameDecoder::PushData` once more, now with the allocation behind `_writable_buffer`:
`append` and `reserve` write to it, move the bytes to a new one and free it.  `Framing.FrameDecoder`
models the buffer by its contents; a round on the heap does to the contents what a round of that
decoder does, and leaves every other buffer and every frame alone (`Rep.round`).
-/

import ICon7.Framing.Decoder
import ICon7.Framing.Storage

namespace ICon7
namespace Framing

/-- What a round works on: the heap, `_writable_buffer`, the two numbers, and the data that has not
been read. -/
structure Feed where
  heap : Heap
  writableBuffer : Option Owner
  headerSize : ℕ
  frameSize : ℕ
  data : List UInt8

namespace Feed

/-- `_writable_buffer.size()`. -/
def size (f : Feed) : ℕ :=
  match f.writableBuffer with
  | none => 0
  | some o => o.size

/-- `_writable_buffer.append(data, bytes)`, and the bytes are skipped. -/
def append (pool : MemoryPool) (f : Feed) (bytes : ℕ) : Option Feed := do
  let (heap, w) ← f.heap.append pool f.writableBuffer (f.data.take bytes)
  return { f with heap := heap, writableBuffer := w, data := f.data.drop bytes }

/-- The first byte of a frame gives the header length. -/
def beginHeader (pool : MemoryPool) (f : Feed) : Option Feed :=
  if f.headerSize = 0 then do
    guard (f.size = 0)
    let b ← f.data.head?
    { f with headerSize := getPacketHeaderSize b }.append pool 1
  else do
    guard (f.size ≠ 0)
    return f

/-- The rest of the header, as far as there is data. -/
def fillHeader (pool : MemoryPool) (f : Feed) : Option Feed :=
  if f.size < f.headerSize then f.append pool (min f.data.length (f.headerSize - f.size))
  else some f

/-- The frame length, once the header is complete, and room for the frame. -/
def sizeFrame (pool : MemoryPool) (f : Feed) : Option Feed :=
  if f.size = f.headerSize then do
    let b ← f.heap.view f.writableBuffer
    let bodySize ← getPacketBodySize b.data f.headerSize
    let (heap, w) ← f.heap.reserve pool f.writableBuffer (f.headerSize + bodySize)
    return { f with heap := heap, writableBuffer := w, frameSize := f.headerSize + bodySize }
  else if f.frameSize = 0 then none
  else some f

/-- The body, as far as there is data. -/
def fillBody (pool : MemoryPool) (f : Feed) : Option Feed :=
  if f.size < f.frameSize then
    let bytes := min (f.frameSize - f.size) f.data.length
    if f.frameSize < bytes then none else f.append pool bytes
  else none

/-- One round of the main loop of `PushData`, up to the frame that it completes. -/
def round (pool : MemoryPool) (f : Feed) : Option (Feed × Bool) := do
  let f ← f.beginHeader pool
  let f ← f.fillHeader pool
  if f.size < f.headerSize then
    guard (f.data.length = 0)
    return ({ f with data := [] }, false)
  else
    let f ← f.sizeFrame pool
    let f ← f.fillBody pool
    if f.size = f.frameSize then return (f, true)
    else if f.frameSize < f.size then none
    else return ({ f with data := [] }, false)

/-! ### A round on the heap is a round on the contents -/

/-- The feed has the contents and the numbers of the decoder, and what else there was in the heap is
as it was. -/
structure Rep (f : Feed) (d : FrameDecoder) (H : Multiset Handle) (W : Multiset Owner) (m : Heap) : Prop where
  sound : f.heap.Sound H (Heap.tokens f.writableBuffer + W)
  view : ∃ b, f.heap.view f.writableBuffer = some b ∧ b.data = d.writableBuffer
  headerSize : f.headerSize = d.headerSize
  frameSize : f.frameSize = d.frameSize
  frames : f.heap.frames = m.frames
  others : ∀ o ∈ W, f.heap.get o.buffer = m.get o.buffer

variable (pool : MemoryPool) {f : Feed} {d d' : FrameDecoder} {H : Multiset Handle} {W : Multiset Owner} {m : Heap}

/-- The size of the buffer is the number of its bytes. -/
theorem Rep.size (h : f.Rep d H W m) : f.size = d.writableBuffer.length := by
  obtain ⟨b, hview, hdata⟩ := h.view
  obtain ⟨b', hview', hwf⟩ := h.sound.view
  obtain rfl : b = b' := Option.some.inj (hview.symm.trans hview')
  rw [← hdata, hwf.length_data, Feed.size]
  cases hw : f.writableBuffer with
  | none =>
    rw [hw] at hview
    obtain rfl : ByteBufferWritable.empty = b := Option.some.inj hview
    rfl
  | some o =>
    rw [hw] at hview
    unfold Heap.view at hview
    cases hget : f.heap.get o.buffer with
    | none => simp [hget] at hview
    | some x =>
      simp only [hget, Option.bind_eq_bind, Option.bind_some, Option.pure_def, Option.some.injEq] at hview
      rw [← hview]

/-- Appending on the heap is taking bytes. -/
theorem Rep.append (h : f.Rep d H W m) (bytes : ℕ)
    (h29 : d.writableBuffer.length + (f.data.take bytes).length < 2 ^ 29) :
    ∃ f', f.append pool bytes = some f' ∧ f'.Rep (d.take f.data bytes).1 H W m ∧
      f'.data = (d.take f.data bytes).2 := by
  obtain ⟨b, hview, hdata⟩ := h.view
  obtain ⟨b', hview', hwf⟩ := h.sound.view
  obtain rfl : b = b' := Option.some.inj (hview.symm.trans hview')
  obtain ⟨m', w', c, happend, hS, hview, hc, hframes, hothers⟩ :=
    h.sound.append pool hview (f.data.take bytes) (by rw [← hwf.length_data, hdata]; exact h29)
  refine ⟨{ f with heap := m', writableBuffer := w', data := f.data.drop bytes }, ?_, ?_, rfl⟩
  · rw [Feed.append, happend]
    rfl
  · exact ⟨hS, ⟨c, hview, by rw [hc, hdata]; rfl⟩, h.headerSize, h.frameSize, hframes.trans h.frames,
      fun o ho => (hothers o ho).trans (h.others o ho)⟩

theorem Rep.beginHeader (h : f.Rep d H W m) {rest : List UInt8} (hrun : d.beginHeader f.data = some (d', rest)) :
    ∃ f', f.beginHeader pool = some f' ∧ f'.Rep d' H W m ∧ f'.data = rest := by
  unfold FrameDecoder.beginHeader at hrun
  unfold Feed.beginHeader
  rw [h.headerSize, h.size]
  split_ifs at hrun ⊢ with h0 hempty
  · split at hrun
    · rename_i b data hnil hcons
      obtain ⟨rfl, rfl⟩ := Prod.mk.inj (Option.some.inj hrun)
      have hrep : Rep { f with headerSize := getPacketHeaderSize b }
          { d with headerSize := getPacketHeaderSize b } H W m :=
        ⟨h.sound, h.view, rfl, h.frameSize, h.frames, h.others⟩
      obtain ⟨f', happend, hrep', hdata⟩ := hrep.append pool 1 (by simp [hnil, hcons])
      refine ⟨f', ?_, ?_, ?_⟩
      · simp only [hnil, List.length_nil, ByteBufferWritable.guard_of, hcons, List.head?_cons,
          Option.bind_eq_bind, Option.bind_some]
        rwa [hcons] at happend
      · simpa [FrameDecoder.take, hnil, hcons] using hrep'
      · simpa [FrameDecoder.take, hcons] using hdata
    · cases hrun
  · obtain ⟨rfl, rfl⟩ := Prod.mk.inj (Option.some.inj hrun)
    exact ⟨f, by rw [ByteBufferWritable.guard_of hempty]; rfl, h, rfl⟩

theorem Rep.fillHeader (h : f.Rep d H W m) (hheader : d.headerSize < 2 ^ 29) :
    ∃ f', f.fillHeader pool = some f' ∧ f'.Rep (d.fillHeader f.data).1 H W m ∧
      f'.data = (d.fillHeader f.data).2 := by
  unfold FrameDecoder.fillHeader Feed.fillHeader
  rw [h.headerSize, h.size]
  split_ifs with hlt
  · exact h.append pool _ (by rw [List.length_take]; omega)
  · exact ⟨f, rfl, h, rfl⟩

theorem Rep.sizeFrame (h : f.Rep d H W m) (hrun : d.sizeFrame = some d') (hframe : d'.frameSize < 2 ^ 29) :
    ∃ f', f.sizeFrame pool = some f' ∧ f'.Rep d' H W m ∧ f'.data = f.data := by
  unfold FrameDecoder.sizeFrame at hrun
  unfold Feed.sizeFrame
  rw [h.headerSize, h.frameSize, h.size]
  split_ifs at hrun ⊢ with hcomplete hzero
  · obtain ⟨bodySize, hbody, hrun⟩ := Option.bind_eq_some_iff.1 hrun
    obtain ⟨-, -, hrun⟩ := Option.bind_eq_some_iff.1 hrun
    obtain rfl := Option.some.inj hrun
    obtain ⟨b, hview, hdata⟩ := h.view
    have hsize : d.headerSize + bodySize < 2 ^ 29 := hframe
    obtain ⟨m', w', c, hreserve, hS, hview', hc, hframes, hothers⟩ := h.sound.reserve pool hview hsize
    refine ⟨{ f with heap := m', writableBuffer := w', frameSize := d.headerSize + bodySize }, ?_, ?_, rfl⟩
    · simp only [hview, hdata, hbody, hreserve, Option.bind_eq_bind, Option.bind_some, Option.pure_def,
        h.headerSize]
    · exact ⟨hS, ⟨c, hview', hc.trans hdata⟩, h.headerSize, rfl, hframes.trans h.frames,
        fun o ho => (hothers o ho).trans (h.others o ho)⟩
  · obtain rfl := Option.some.inj hrun
    exact ⟨f, rfl, h, rfl⟩

theorem Rep.fillBody (h : f.Rep d H W m) (hframe : d.frameSize < 2 ^ 29) {rest : List UInt8}
    (hrun : d.fillBody f.data = some (d', rest)) :
    ∃ f', f.fillBody pool = some f' ∧ f'.Rep d' H W m ∧ f'.data = rest := by
  unfold FrameDecoder.fillBody at hrun
  unfold Feed.fillBody
  rw [h.frameSize, h.size]
  split_ifs at hrun ⊢ with hlt
  simp only at hrun ⊢
  split_ifs at hrun ⊢ with hbytes
  obtain ⟨rfl, rfl⟩ := Prod.mk.inj (Option.some.inj hrun)
  exact h.append pool _ (by rw [List.length_take]; omega)

/-- The unread data is not part of what is represented. -/
theorem Rep.data_nil (h : f.Rep d H W m) : Rep { f with data := [] } d H W m :=
  ⟨h.sound, h.view, h.headerSize, h.frameSize, h.frames, h.others⟩

theorem fillBody_frameSize {data rest : List UInt8} (h : d.fillBody data = some (d', rest)) :
    d'.frameSize = d.frameSize := by
  unfold FrameDecoder.fillBody at h
  split_ifs at h
  simp only at h
  split_ifs at h
  obtain ⟨rfl, -⟩ := Prod.mk.inj (Option.some.inj h)
  rfl

theorem headerSize_of_beginHeader {data data' : List UInt8} (h : d.beginHeader data = some (d', data'))
    (hheader : d.headerSize ≤ 4) : d'.headerSize ≤ 4 := by
  unfold FrameDecoder.beginHeader at h
  split_ifs at h
  · split at h
    · obtain ⟨rfl, -⟩ := Prod.mk.inj (Option.some.inj h)
      exact (getPacketHeaderSize_bounds _).2
    · cases h
  · obtain ⟨rfl, -⟩ := Prod.mk.inj (Option.some.inj h)
    exact hheader

/-- **A round on the heap simulates a round of the decoder.** -/
theorem Rep.round (h : f.Rep d H W m) (hheader : d.headerSize ≤ 4) {rest : List UInt8} {complete : Bool}
    (hrun : d.round f.data = some (d', rest, complete)) (hframe : d'.frameSize < 2 ^ 29) :
    ∃ f', f.round pool = some (f', complete) ∧ f'.Rep d' H W m ∧ f'.data = rest := by
  unfold FrameDecoder.round at hrun
  obtain ⟨⟨d₁, data₁⟩, hbegin, hrun⟩ := Option.bind_eq_some_iff.1 hrun
  obtain ⟨f₁, hf₁, hrep₁, hdata₁⟩ := h.beginHeader pool hbegin
  have hheader₁ := headerSize_of_beginHeader hbegin hheader
  subst hdata₁
  obtain ⟨f₂, hf₂, hrep₂, hdata₂⟩ := hrep₁.fillHeader pool (by omega)
  simp only at hrun
  unfold Feed.round
  simp only [hf₁, hf₂, Option.bind_eq_bind, Option.bind_some]
  by_cases hshort : (d₁.fillHeader f₁.data).1.writableBuffer.length < (d₁.fillHeader f₁.data).1.headerSize
  · rw [if_pos (by rwa [hrep₂.size, hrep₂.headerSize]), hdata₂]
    rw [if_pos hshort] at hrun
    obtain ⟨_, hguard, hrun⟩ := Option.bind_eq_some_iff.1 hrun
    simp only [Option.pure_def, Option.some.injEq, Prod.mk.injEq] at hrun
    obtain ⟨rfl, rfl, rfl⟩ := hrun
    rw [hguard]
    exact ⟨_, rfl, hrep₂.data_nil, rfl⟩
  · rw [if_neg (by rwa [hrep₂.size, hrep₂.headerSize])]
    rw [if_neg hshort] at hrun
    obtain ⟨d₃, hsize, hrun⟩ := Option.bind_eq_some_iff.1 hrun
    obtain ⟨⟨d₄, data₄⟩, hbody, hrun⟩ := Option.bind_eq_some_iff.1 hrun
    simp only at hrun
    obtain rfl : d₄ = d' := by
      split_ifs at hrun
      · exact (Prod.mk.inj (Option.some.inj hrun)).1
      · exact (Prod.mk.inj (Option.some.inj hrun)).1
    have hframe₃ : d₃.frameSize < 2 ^ 29 := fillBody_frameSize hbody ▸ hframe
    obtain ⟨f₃, hf₃, hrep₃, hdata₃⟩ := hrep₂.sizeFrame pool hsize hframe₃
    rw [← hdata₂, ← hdata₃] at hbody
    obtain ⟨f₄, hf₄, hrep₄, hdata₄⟩ := hrep₃.fillBody pool hframe₃ hbody
    simp only [hf₃, hf₄, Option.bind_some]
    by_cases hcomplete : d₄.writableBuffer.length = d₄.frameSize
    · rw [if_pos hcomplete, Option.pure_def, Option.some.injEq, Prod.mk.injEq, Prod.mk.injEq] at hrun
      obtain ⟨-, rfl, rfl⟩ := hrun
      rw [if_pos (by rwa [hrep₄.size, hrep₄.frameSize])]
      exact ⟨f₄, rfl, hrep₄, hdata₄⟩
    · rw [if_neg hcomplete] at hrun
      rw [if_neg (by rwa [hrep₄.size, hrep₄.frameSize])]
      split_ifs at hrun with hlong
      rw [Option.pure_def, Option.some.injEq, Prod.mk.injEq, Prod.mk.injEq] at hrun
      obtain ⟨-, rfl, rfl⟩ := hrun
      rw [if_neg (by rwa [hrep₄.size, hrep₄.frameSize])]
      exact ⟨_, rfl, hrep₄.data_nil, rfl⟩

end Feed
end Framing
end ICon7
