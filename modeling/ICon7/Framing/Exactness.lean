/-
# Frames are counted exactly and never change

The decoder keeps what the operations keep: in every round of `PushData`, when a frame is handed to
`onPacket`, when it is recycled or kept in `_buffer` afterwards, and in `Restart`.  So in every run
the counter of a storage is the number of its handles, a frame ends once, when its last handle does,
and the bytes of a frame are those that were received for as long as there is a handle.
-/

import ICon7.Framing.Counting
import ICon7.Lib.Run

namespace ICon7
namespace Framing
namespace Sharing

variable {s s' s'' : Sharing} {I K : ℕ → Prop} {i j k : ℕ} {h : Handle}

/-! ### What the decoder's steps keep -/

/-- `_writable_buffer` and the two numbers are those of a decoder that holds part of a frame. -/
def HoldsPart (s : Sharing) : Prop :=
  ∃ held b, (∀ n, FrameDecoder.frameLen held = some n → held.length < n) ∧
    s.heap.view (s.writable 0) = some b ∧ b.data = held ∧
    (s.headerSize, s.frameSize) = ((FrameDecoder.ofHeld held).headerSize, (FrameDecoder.ofHeld held).frameSize)

theorem HoldsPart.of_frame (hs : s.HoldsPart) (hframe : Frame I K s s') (h0 : ¬K 0)
    (hw : 0 < s.writables.length) :
    s'.HoldsPart := by
  obtain ⟨held, b, hheld, hview, hdata, hnumbers⟩ := hs
  have hdecoder := hframe.decoder
  simp only [Prod.mk.injEq] at hdecoder
  refine ⟨held, b, hheld, ?_, hdata, by rw [hdecoder.1, hdecoder.2.1, hnumbers]⟩
  rw [hframe.writables 0 hw h0, ← hview]
  exact Heap.view_congr fun o ho => hframe.views 0 h0 o ho

/-- **`clear`** empties the buffer in place, and is the `clear` of a buffer with its bytes. -/
theorem Core.clear (hs : s.Core) (hw : 0 < s.writables.length) :
    s.clear.Core ∧ Frame (fun _ => False) (· = 0) s s.clear ∧
      ∃ b b', s.heap.view (s.writable 0) = some b ∧ b.clear = some b' ∧
        s.clear.heap.view (s.clear.writable 0) = some b' ∧ b'.data = [] := by
  unfold Sharing.clear
  cases hw0 : s.writable 0 with
  | none =>
    refine ⟨hs, .refl _ _ s, .empty, .empty, rfl, rfl, by rw [hw0]; rfl, rfl⟩
  | some o =>
    obtain ⟨H, W, hH, hW, hS⟩ := hs
    obtain ⟨rest, rfl, hset⟩ := hW.split hw
    have htok : s.writables[0]?.join = some o := hw0
    rw [htok, Heap.tokens_some_add] at hS
    obtain ⟨x, hget, hx, -⟩ := hS.of_cons
    have hlarge := hx.large
    have hlen := hx.wf.length_mem
    have howns : Heap.Owns x
        ⟨o.buffer, 0, o.capacity + o.offset - INITIAL_DATA_OFFSET, INITIAL_DATA_OFFSET, 0⟩ := by
      refine ⟨⟨Nat.zero_le _, ?_, fun _ => ?_⟩, hlarge⟩
      · simp only at hlen ⊢
        omega
      · simp only [INITIAL_DATA_OFFSET, sizeofStorageHeader] at hlarge hlen ⊢
        omega
    have hbuffer : (Owner.mk o.buffer 0 (o.capacity + o.offset - INITIAL_DATA_OFFSET) INITIAL_DATA_OFFSET 0).buffer =
      o.buffer := rfl
    refine ⟨⟨H, _, hH, hset _, by rw [Heap.tokens_some_add]; exact hS.reown hbuffer hget howns⟩,
      ⟨le_rfl, fun _ _ _ => rfl, by simp, fun n _ hn => writable_set_of_ne hn _, fun _ _ _ _ => rfl,
        List.prefix_rfl, rfl⟩, ?_⟩
    have hmem : x.mem ≠ [] := List.ne_nil_of_length_pos (Nat.zero_lt_of_lt hlarge)
    refine ⟨⟨x.mem, o.size, o.capacity, o.offset, o.flags⟩,
      ⟨x.mem, 0, o.capacity + o.offset - INITIAL_DATA_OFFSET, INITIAL_DATA_OFFSET, 0⟩, Heap.view_some hget,
      if_pos hmem, ?_, rfl⟩
    simp only [writable, List.getElem?_set_self hw, Option.join_some]
    exact Heap.view_some hget

theorem bufferCapacity_eq (hs : s.Core) : ∃ n, s.bufferCapacity = some n := by
  unfold bufferCapacity
  cases h0 : s.handle 0 with
  | none => exact ⟨0, rfl⟩
  | some h =>
    obtain ⟨H, W, hH, hW, hS⟩ := hs
    obtain ⟨x, -, hget, -⟩ := hS.of_handle (hH.mem h0)
    exact ⟨x.capacity, by simp only [hget, Option.bind_eq_bind, Option.bind_some, Option.pure_def]⟩

theorem Core.chooseBuffer (hs : s.Core) (hh : 0 < s.handles.length) (hw : 0 < s.writables.length) :
    ∃ s', s.chooseBuffer = some s' ∧ s'.Core ∧ Frame (· = 0) (· = 0) s s' := by
  obtain ⟨s₁, hstep, hcore, hframe, -⟩ := hs.tryRecycle (i := 0) (k := 0) hh hw
  obtain ⟨n, hn⟩ := bufferCapacity_eq hs
  unfold Sharing.chooseBuffer
  by_cases hzero : s.writableCapacity = 0
  · rw [if_pos hzero]
    exact ⟨s₁, hstep, hcore, hframe⟩
  · rw [if_neg hzero]
    simp only [hn, Option.bind_eq_bind, Option.bind_some]
    split_ifs
    · exact ⟨s₁, hstep, hcore, hframe⟩
    · exact ⟨s, rfl, hs, .refl _ _ s⟩

/-- **`Restart`** leaves an empty buffer. -/
theorem Core.restart (hs : s.Core) (hh : 0 < s.handles.length) (hw : 0 < s.writables.length) :
    ∃ s', s.restart = some s' ∧ s'.Core ∧ s'.HoldsPart ∧
      Frame (· = 0) (· = 0) { s with frameSize := 0, headerSize := 0 } s' := by
  have hs₀ : Core { s with frameSize := 0, headerSize := 0 } := hs
  obtain ⟨s₁, hstep, hcore, hframe⟩ := hs₀.chooseBuffer hh hw
  have hw₁ : 0 < s₁.writables.length := hw.trans_le hframe.writables_length
  obtain ⟨hcore₂, hframe₂, -, b, -, -, hview, hdata⟩ := hcore.clear hw₁
  have hall := hframe.trans (hframe₂.mono (fun _ _ h => h.elim) fun _ _ h => h)
  have hdecoder := hall.decoder
  simp only [Prod.mk.injEq] at hdecoder
  refine ⟨s₁.clear, ?_, hcore₂, ⟨[], b, by simp [FrameDecoder.frameLen], hview, hdata, ?_⟩, hall⟩
  · simp only [Sharing.restart, hstep, Option.bind_eq_bind, Option.bind_some, Option.pure_def]
  · rw [hdecoder.1, hdecoder.2.1]
    rfl

/-- What holds between the steps: the objects agree with the heap, and the decoder holds part of a
frame or has handed its buffer out. -/
structure Inv (s : Sharing) : Prop where
  core : s.Core
  handles_length : 2 ≤ s.handles.length
  writables_length : 1 ≤ s.writables.length
  idle : s.handling = false → s.handle 1 = none ∧ s.HoldsPart
  handed : s.handling = true → s.writable 0 = none

theorem inv_start : Inv {} := by
  refine ⟨⟨0, 0, ⟨[0, 0], .cons rfl (.cons rfl .nil), rfl⟩, ⟨[0], .cons rfl .nil, rfl⟩,
    ⟨fun a => ?_, by simp, by simp, by simp⟩⟩,
    le_rfl, le_rfl, fun _ => ⟨rfl, [], .empty, by simp [FrameDecoder.frameLen], rfl, rfl, rfl⟩, by simp⟩
  exact .free

/-- An operation that does not touch the decoder's own objects. -/
theorem Inv.of_frame (hI : s.Inv) (hcore : s'.Core) (hframe : Frame I K s s') (h1 : s.handling = false → ¬I 1)
    (h0 : ¬K 0) : s'.Inv := by
  have hdecoder := hframe.decoder
  simp only [Prod.mk.injEq] at hdecoder
  have hhandling : s'.handling = s.handling := hdecoder.2.2.2.2.2
  refine ⟨hcore, hI.handles_length.trans hframe.handles_length,
    hI.writables_length.trans hframe.writables_length, ?_, ?_⟩
  · intro hidle
    rw [hhandling] at hidle
    obtain ⟨hnull, hpart⟩ := hI.idle hidle
    refine ⟨?_, hpart.of_frame hframe h0 hI.writables_length⟩
    rw [hframe.handles 1 hI.handles_length (h1 hidle), hnull]
  · intro hbusy
    rw [hhandling] at hbusy
    rw [hframe.writables 0 hI.writables_length h0, hI.handed hbusy]

/-- A frame is at most four bytes of header and `2 ^ 28` of body. -/
theorem frameLen_lt {bytes : List UInt8} {n : ℕ} (hn : FrameDecoder.frameLen bytes = some n) : n < 2 ^ 29 := by
  cases bytes with
  | nil => simp [FrameDecoder.frameLen] at hn
  | cons b t =>
    by_cases hlt : (b :: t).length < getPacketHeaderSize b
    · rw [FrameDecoder.frameLen_cons_of_lt hlt] at hn
      cases hn
    · obtain ⟨k, -, -, hk, hframe⟩ := FrameDecoder.frameLen_cons_of_le (Nat.not_lt.1 hlt)
      have := (getPacketHeaderSize_bounds b).2
      rw [hframe, Option.some.injEq] at hn
      omega

theorem ofHeld_headerSize_le (held : List UInt8) : (FrameDecoder.ofHeld held).headerSize ≤ 4 := by
  cases held with
  | nil => exact Nat.zero_le 4
  | cons b t => exact (getPacketHeaderSize_bounds b).2

theorem ofHeld_frameSize_lt (held : List UInt8) : (FrameDecoder.ofHeld held).frameSize < 2 ^ 29 := by
  cases held with
  | nil => exact Nat.two_pow_pos 29
  | cons b t =>
    change (FrameDecoder.frameLen (b :: t)).getD 0 < 2 ^ 29
    cases hn : FrameDecoder.frameLen (b :: t) with
    | none => exact Nat.two_pow_pos 29
    | some n => exact frameLen_lt hn

/-- **A round of the decoder** touches its own buffer only, and without a frame it goes on holding
part of one. -/
theorem Inv.round (pool : MemoryPool) (hI : s.Inv) (hidle : s.handling = false) (hdata : s.data ≠ []) :
    ∃ f complete, s.feed.round pool = some (f, complete) ∧ (s.ofFeed f).Core ∧
      Frame (fun _ => False) (· = 0)
        { s with headerSize := f.headerSize, frameSize := f.frameSize, data := f.data } (s.ofFeed f) ∧
      (complete = false → (s.ofFeed f).HoldsPart) := by
  obtain ⟨H, W, hH, hW, hS⟩ := hI.core
  obtain ⟨rest, rfl, hset⟩ := hW.split hI.writables_length
  obtain ⟨-, held, b, hheld, hview, hbytes, hnumbers⟩ := hI.idle hidle
  simp only [Prod.mk.injEq] at hnumbers
  have hrep : s.feed.Rep (FrameDecoder.ofHeld held) H rest s.heap :=
    ⟨hS, ⟨b, hview, hbytes.trans (FrameDecoder.ofHeld_writableBuffer held).symm⟩, hnumbers.1, hnumbers.2, rfl,
      fun _ _ => rfl⟩
  have hround := FrameDecoder.round_spec hdata hheld
  -- what is left of the data either completes the frame or does not
  obtain ⟨d', rest', complete, hrun, hframe, hpart⟩ : ∃ d' rest' complete,
      (FrameDecoder.ofHeld held).round s.data = some (d', rest', complete) ∧ d'.frameSize < 2 ^ 29 ∧
      (complete = false → d' = FrameDecoder.ofHeld (held ++ s.data) ∧
        ∀ n, FrameDecoder.frameLen (held ++ s.data) = some n → (held ++ s.data).length < n) := by
    cases hlen : FrameDecoder.frameLen (held ++ s.data) with
    | none =>
      rw [hlen] at hround
      exact ⟨_, _, _, hround, ofHeld_frameSize_lt _, fun _ => ⟨rfl, by simp⟩⟩
    | some n =>
      rw [hlen] at hround
      by_cases hle : n ≤ (held ++ s.data).length
      · simp only [if_pos hle] at hround
        exact ⟨_, _, _, hround, frameLen_lt hlen, by simp⟩
      · simp only [if_neg hle] at hround
        refine ⟨_, _, _, hround, ofHeld_frameSize_lt _, fun _ => ⟨rfl, ?_⟩⟩
        intro n' hn'
        rw [Option.some.injEq] at hn'
        omega
  obtain ⟨f, hf, hrep', -⟩ := hrep.round pool (ofHeld_headerSize_le held) hrun hframe
  have hwritable : (s.ofFeed f).writable 0 = f.writableBuffer := by
    simp [writable, ofFeed, List.getElem?_set_self hI.writables_length]
  refine ⟨f, complete, hf, ⟨H, _, hH, hset _, hrep'.sound⟩,
    ⟨le_rfl, fun _ _ _ => rfl, by simp [ofFeed], ?_, ?_, ?_, rfl⟩, ?_⟩
  · exact fun n _ hn => writable_set_of_ne hn _
  · exact fun n hn o ho => hrep'.others o (mem_rest hset hn ho)
  · exact hrep'.frames ▸ List.prefix_rfl
  · intro hcomplete
    obtain ⟨rfl, hlt⟩ := hpart hcomplete
    obtain ⟨c, hview', hc⟩ := hrep'.view
    refine ⟨held ++ s.data, c, hlt, by rw [hwritable]; exact hview', ?_, ?_⟩
    · rw [hc, FrameDecoder.ofHeld_writableBuffer]
    · rw [← hrep'.headerSize, ← hrep'.frameSize]
      rfl

/-- What a step leaves of the handles and the frames. -/
structure Later (I : ℕ → Prop) (s s' : Sharing) : Prop where
  length : s.handles.length ≤ s'.handles.length
  handles : ∀ i < s.handles.length, ¬I i → s'.handle i = s.handle i
  frames : s.heap.frames <+: s'.heap.frames

theorem Frame.later (h : Frame I K s s') : Later I s s' := ⟨h.handles_length, h.handles, h.frames⟩

theorem Later.trans (h₁ : Later I s s') (h₂ : Later I s' s'') : Later I s s'' where
  length := h₁.length.trans h₂.length
  handles i hi hI := (h₂.handles i (hi.trans_le h₁.length) hI).trans (h₁.handles i hi hI)
  frames := h₁.frames.trans h₂.frames

theorem Later.mono {J : ℕ → Prop} (h₁ : Later I s s') (hI : ∀ i, I i → J i) : Later J s s' :=
  ⟨h₁.length, fun i hi hJ => h₁.handles i hi fun h => hJ (hI i h), h₁.frames⟩

/-- **Handing out a frame** makes a handle of the buffer. -/
theorem Core.handOut (hs : s.Core) (hh : 2 ≤ s.handles.length) (hw : 1 ≤ s.writables.length)
    (hnull : s.handle 1 = none) : ∃ s', s.handOut = some s' ∧ s'.Inv ∧ Later (· ≤ 1) s s' := by
  obtain ⟨m, h, hshare, hcore, hframes, -⟩ := hs.share hw
  have hholds : ∀ H, Holds s.handles H → Holds (s.handles.set 1 h) (Heap.tokens h + H) := by
    intro H hH
    obtain ⟨rest, hrest, hset⟩ := hH.split hh
    have htok : s.handles[1]?.join = none := hnull
    rw [htok, Heap.tokens_none, zero_add] at hrest
    exact hrest ▸ hset h
  refine ⟨{ s with heap := m, writables := s.writables.set 0 none, handles := s.handles.set 1 h, handling := true },
    by simp only [Sharing.handOut, hshare, Option.bind_eq_bind, Option.bind_some, Option.pure_def],
    ⟨hcore hholds, by simpa using hh, by simpa using hw, fun h => Bool.noConfusion h, fun _ => ?_⟩,
    ⟨by simp, fun i _ hi => handle_set_of_ne (by omega) _ _, hframes⟩⟩
  simp only [writable, List.getElem?_set_self hw, Option.join_some]

/-- **A step of `PushData`.** -/
theorem Inv.advance (pool : MemoryPool) (hI : s.Inv) :
    ∃ s', s.advance pool = some s' ∧ s'.Inv ∧ Later (· ≤ 1) s s' := by
  unfold Sharing.advance
  by_cases hbusy : s.handling = true
  · rw [if_pos hbusy]
    exact ⟨s, rfl, hI, (Frame.refl _ (fun _ => False) s).later⟩
  rw [if_neg hbusy]
  have hidle : s.handling = false := by simpa using hbusy
  by_cases hdata : s.data = []
  · rw [if_pos hdata]
    cases hpieces : s.pieces with
    | nil => exact ⟨s, rfl, hI, (Frame.refl _ (fun _ => False) s).later⟩
    | cons piece pieces =>
      exact ⟨_, rfl, ⟨hI.core, hI.handles_length, hI.writables_length, hI.idle, hI.handed⟩,
        ⟨le_rfl, fun _ _ _ => rfl, List.prefix_rfl⟩⟩
  rw [if_neg hdata]
  obtain ⟨f, complete, hround, hcore, hframe, hpart⟩ := hI.round pool hidle hdata
  have hh : 2 ≤ (s.ofFeed f).handles.length := hI.handles_length
  have hw : 1 ≤ (s.ofFeed f).writables.length := hI.writables_length.trans hframe.writables_length
  have hlater : Later (· ≤ 1) s (s.ofFeed f) := ⟨le_rfl, fun _ _ _ => rfl, hframe.frames⟩
  simp only [hround, Option.bind_eq_bind, Option.bind_some]
  cases complete with
  | false =>
    refine ⟨_, rfl, ⟨hcore, hh, hw, fun _ => ⟨(hI.idle hidle).1, hpart rfl⟩, fun h => ?_⟩, hlater⟩
    rw [show (s.ofFeed f).handling = s.handling from rfl, hidle] at h
    cases h
  | true =>
    simp only [if_true]
    split_ifs
    · obtain ⟨s', hstep, hI', hlater'⟩ := hcore.handOut hh hw (hI.idle hidle).1
      exact ⟨s', hstep, hI', hlater.trans hlater'⟩
    · obtain ⟨s', hstep, hcore', hpart', hframe'⟩ := hcore.restart (by omega) hw
      have hlater' := hframe'.later
      have hdecoder := hframe'.decoder
      simp only [Prod.mk.injEq] at hdecoder
      refine ⟨s', hstep, ⟨hcore', hh.trans hframe'.handles_length, hw.trans hframe'.writables_length,
          fun _ => ⟨?_, hpart'⟩, ?_⟩,
        hlater.trans ⟨hlater'.length, fun i hi h => hlater'.handles i hi (by omega), hlater'.frames⟩⟩
      · exact (hframe'.handles 1 hh (by decide)).trans (hI.idle hidle).1
      · intro h
        rw [hdecoder.2.2.2.2.2] at h
        exact absurd (h.symm.trans hidle) (by decide)

/-- **The end of `onPacket`.** -/
theorem Inv.finish (hI : s.Inv) : ∃ s', s.finish = some s' ∧ s'.Inv ∧ Later (· ≤ 1) s s' := by
  unfold Sharing.finish
  by_cases hidle : s.handling = false
  · rw [if_pos hidle]
    exact ⟨s, rfl, hI, (Frame.refl _ (fun _ => False) s).later⟩
  rw [if_neg hidle]
  obtain ⟨s₁, hstep₁, hcore₁, hframe₁, -⟩ :=
    hI.core.tryRecycle (i := 1) (k := 0) hI.handles_length hI.writables_length
  have hh₁ := hI.handles_length.trans hframe₁.handles_length
  have hw₁ := hI.writables_length.trans hframe₁.writables_length
  obtain ⟨s₂, hstep₂, hcore₂, hpart₂, hframe₂⟩ := hcore₁.restart (by omega) hw₁
  have hh₂ : 2 ≤ s₂.handles.length := hh₁.trans hframe₂.handles_length
  have hw₂ : 1 ≤ s₂.writables.length := hw₁.trans hframe₂.writables_length
  obtain ⟨s₃, hstep₃, hcore₃, hframe₃⟩ : ∃ s₃, s₂.keepBuffer = some s₃ ∧ s₃.Core ∧
      Frame (fun n => n = 0 ∨ n = 1) (fun _ => False) s₂ s₃ := by
    unfold keepBuffer
    split_ifs
    · exact hcore₂.moveAssign (by omega) 1
    · exact ⟨s₂, rfl, hcore₂, .refl _ _ s₂⟩
  obtain ⟨s₄, hstep₄, hcore₄, hframe₄, hnull, -⟩ := hcore₃.destroy 1
  have hframe : Frame (fun n => n = 0 ∨ n = 1) (fun _ => False) s₂ s₄ :=
    hframe₃.trans (hframe₄.mono (fun _ _ h => .inr h) fun _ _ h => h)
  refine ⟨{ s₄ with handling := false }, ?_,
    ⟨hcore₄, hh₂.trans hframe.handles_length, hw₂.trans hframe.writables_length,
    fun _ => ⟨hnull, ?_⟩, fun h => Bool.noConfusion h⟩, ?_⟩
  · simp only [hstep₁, hstep₂, Option.bind_eq_bind, Option.bind_some, hstep₃, hstep₄, Option.pure_def]
  · exact (show s₄.HoldsPart from hpart₂.of_frame hframe not_false hw₂)
  · have hlater : Later (· ≤ 1) s s₄ :=
      ((hframe₁.later.mono fun i h => by omega).trans
        ⟨hframe₂.handles_length, fun i hi h => hframe₂.handles i hi (by omega), hframe₂.frames⟩).trans
        (hframe.later.mono fun i h => by omega)
    exact ⟨hlater.length, hlater.handles, hlater.frames⟩

/-! ### What every step keeps -/

/-- A name stands for a handle that is not `_buffer`, and for `buffer` only while `onPacket` runs. -/
theorem Inv.resolve (hI : s.Inv) {g : HandleName} (hj : s.resolve g = some j) :
    j < s.handles.length ∧ (s.handling = false → 1 ≠ j) := by
  have hlen := hI.handles_length
  unfold Sharing.resolve at hj
  cases g with
  | packet =>
    simp only at hj
    split_ifs at hj with hbusy
    obtain rfl := Option.some.inj hj
    exact ⟨hlen, fun hidle => by rw [hidle] at hbusy; cases hbusy⟩
  | kept i =>
    simp only at hj
    split_ifs at hj with hlt
    obtain rfl := Option.some.inj hj
    exact ⟨hlt, fun _ => by omega⟩

/-- What a step from a state has to do: succeed, keep the invariant and leave all other handles. -/
def Does (s : Sharing) (J : ℕ → Prop) (op : Option Sharing) : Prop :=
  ∃ s', op = some s' ∧ s'.Inv ∧ Later J s s'

theorem Inv.does_nothing (hI : s.Inv) (J : ℕ → Prop) : s.Does J (some s) :=
  ⟨s, rfl, hI, (Frame.refl J (fun _ => False) s).later⟩

/-- An operation on objects that are not the decoder's. -/
theorem Inv.does {J : ℕ → Prop} {op : Option Sharing} (hI : s.Inv)
    (hop : ∃ s', op = some s' ∧ s'.Core ∧ Frame I K s s') (h1 : s.handling = false → ¬I 1) (h0 : ¬K 0)
    (hJ : ∀ n, I n → J n) : s.Does J op := by
  obtain ⟨s', hstep, hcore, hframe⟩ := hop
  exact ⟨s', hstep, hI.of_frame hcore hframe h1 h0, hframe.later.mono hJ⟩

theorem Inv.on {J : ℕ → Prop} (hI : s.Inv) (g : HandleName) {op : ℕ → Option Sharing}
    (hop : ∀ j, s.resolve g = some j → s.Does J (op j)) : s.Does J (s.on g op) := by
  unfold Sharing.on
  cases hj : s.resolve g with
  | none => exact hI.does_nothing J
  | some j => exact hop j hj

theorem Inv.onWritable {J : ℕ → Prop} (hI : s.Inv) (k : ℕ) {op : ℕ → Option Sharing}
    (hop : k + 1 < s.writables.length → s.Does J (op (k + 1))) : s.Does J (s.onWritable k op) := by
  unfold Sharing.onWritable
  split_ifs with hk
  · exact hop hk
  · exact hI.does_nothing J

/-- **What one step keeps**, if the counters can count the handle that it makes. -/
theorem Inv.step (pool : MemoryPool) (hI : s.Inv) (a : Action) (hmeets : s.Meets a) :
    s.Does (fun n => n ≤ 1 ∨ ∃ g ∈ a.names, s.resolve g = some n) (s.step pool a) := by
  cases a with
  | construct k =>
    exact hI.onWritable k fun hk => hI.does (hI.core.construct hk) (by simp) (by simp) (by simp)
  | copyConstruct g =>
    exact hI.on g fun j hj => hI.does (hI.core.copyConstruct j (hmeets j hj)) (by simp) (by simp) (by simp)
  | moveConstruct g =>
    refine hI.on g fun j hj => ?_
    obtain ⟨hlt, h1⟩ := hI.resolve hj
    obtain ⟨hcore, hframe⟩ := hI.core.moveConstruct hlt
    exact hI.does ⟨_, rfl, hcore, hframe⟩ h1 (by simp) fun n hn => .inr ⟨g, by simp [Action.names], hn ▸ hj⟩
  | copyAssign h g =>
    refine hI.on h fun i hi => hI.on g fun j hj => ?_
    obtain ⟨hlt, h1⟩ := hI.resolve hi
    exact hI.does (hI.core.copyAssign hlt (hmeets i hi j hj)) h1 (by simp)
      fun n hn => .inr ⟨h, by simp [Action.names], hn ▸ hi⟩
  | moveAssign h g =>
    refine hI.on h fun i hi => hI.on g fun j hj => ?_
    obtain ⟨hlt, h1⟩ := hI.resolve hi
    obtain ⟨-, h1'⟩ := hI.resolve hj
    refine hI.does (hI.core.moveAssign hlt j) (fun hidle => not_or.2 ⟨h1 hidle, h1' hidle⟩) (by simp) ?_
    rintro n (rfl | rfl)
    · exact .inr ⟨h, by simp [Action.names], hi⟩
    · exact .inr ⟨g, by simp [Action.names], hj⟩
  | swap h g =>
    refine hI.on h fun i hi => hI.on g fun j hj => ?_
    obtain ⟨hlt, h1⟩ := hI.resolve hi
    obtain ⟨hlt', h1'⟩ := hI.resolve hj
    refine hI.does (hI.core.swap hlt hlt') (fun hidle => not_or.2 ⟨h1 hidle, h1' hidle⟩) (by simp) ?_
    rintro n (rfl | rfl)
    · exact .inr ⟨h, by simp [Action.names], hi⟩
    · exact .inr ⟨g, by simp [Action.names], hj⟩
  | destroy h =>
    refine hI.on h fun i hi => ?_
    obtain ⟨s', hstep, hcore, hframe, -⟩ := hI.core.destroy i
    exact hI.does ⟨s', hstep, hcore, hframe⟩ (hI.resolve hi).2 (by simp)
      fun n hn => .inr ⟨h, by simp [Action.names], hn ▸ hi⟩
  | tryRecycle h k =>
    refine hI.on h fun i hi => hI.onWritable k fun hk => ?_
    obtain ⟨hlt, h1⟩ := hI.resolve hi
    obtain ⟨s', hstep, hcore, hframe, -⟩ := hI.core.tryRecycle hlt hk
    exact hI.does ⟨s', hstep, hcore, hframe⟩ h1 (by simp) fun n hn => .inr ⟨h, by simp [Action.names], hn ▸ hi⟩
  | setFlags h flags =>
    exact hI.on h fun i _ => hI.does (hI.core.setFlags i flags) (by simp) (by simp) (by simp)
  | newWritable =>
    obtain ⟨hcore, hframe⟩ := hI.core.newWritable
    exact hI.does ⟨_, rfl, hcore, hframe⟩ (by simp) (by simp) (by simp)
  | write k b =>
    change s.Does _ (s.onWritable k fun k => s.write k b)
    refine hI.onWritable k fun hk => ?_
    exact hI.does (hI.core.write hk b) (by simp) (by simp) (by simp)
  | moveWritable k l =>
    change s.Does _ (s.onWritable k fun k => s.onWritable l fun l => s.moveWritable k l)
    refine hI.onWritable k fun hk => hI.onWritable l fun hl => ?_
    exact hI.does (hI.core.moveWritable hk hl) (by simp) (by simp) (by simp)
  | destroyWritable k =>
    exact hI.onWritable k fun hk => hI.does (hI.core.destroyWritable hk) (by simp) (by simp) (by simp)
  | pushData chunk onPacket =>
    refine ⟨_, rfl, ?_, ?_⟩
    · unfold Sharing.pushData
      split_ifs
      · exact ⟨hI.core, hI.handles_length, hI.writables_length, hI.idle, hI.handed⟩
      · exact hI
    · unfold Sharing.pushData
      split_ifs <;> exact ⟨le_rfl, fun _ _ _ => rfl, List.prefix_rfl⟩
  | advance =>
    obtain ⟨s', hstep, hI', hlater⟩ := hI.advance pool
    exact ⟨s', hstep, hI', hlater.mono fun n hn => .inl hn⟩
  | finish =>
    obtain ⟨s', hstep, hI', hlater⟩ := hI.finish
    exact ⟨s', hstep, hI', hlater.mono fun n hn => .inl hn⟩

/-! ### What the counts say -/

/-- The bytes that a handle sees. -/
def bytes (s : Sharing) (h : Handle) : Option (List UInt8) := (s.heap.get h.storage).map Allocation.data

/-- There is a handle of the frame. -/
def Alive (s : Sharing) (f : ℕ) : Prop := ∃ i, ∃ h ∈ s.handle i, h.frame = f

/-- Storages are counted exactly, and nothing is lost, freed early or written to while it is shared. -/
structure Exact (s : Sharing) : Prop where
  /-- The counter is the number of handles. -/
  refCounter : ∀ i, ∀ h ∈ s.handle i, ∃ x, s.heap.get h.storage = some x ∧ x.refCounter = s.count h.storage
  /-- A handle sees the bytes its frame had when it came to be shared. -/
  bytes : ∀ i, ∀ h ∈ s.handle i, s.bytes h = s.heap.frames[h.frame]?
  /-- Handles of one frame are those of one storage. -/
  frame_iff : ∀ i j, ∀ h ∈ s.handle i, ∀ h' ∈ s.handle j, h.frame = h'.frame ↔ h.storage = h'.storage
  /-- A writable buffer is the only object that points to its allocation. -/
  unwritable : ∀ i k, ∀ h ∈ s.handle i, ∀ o ∈ s.writable k, o.buffer ≠ h.storage
  unique : ∀ k l, ∀ o ∈ s.writable k, ∀ o' ∈ s.writable l, o.buffer = o'.buffer → k = l
  /-- What is allocated is held, by handles or by a writable buffer. -/
  held : ∀ a, (s.heap.get a).isSome ↔
    (∃ i, ∃ h ∈ s.handle i, h.storage = a) ∨ ∃ k, ∃ o ∈ s.writable k, o.buffer = a
  /-- A frame ends once, with its last handle. -/
  ended : ∀ f < s.heap.frames.length,
    s.Alive f ∧ s.heap.ended.count f = 0 ∨ ¬s.Alive f ∧ s.heap.ended.count f = 1

/-- Two writable buffers do not point to one allocation. -/
theorem Core.unique {l : ℕ} {o o' : Owner} (hs : s.Core) (ho : s.writable k = some o)
    (ho' : s.writable l = some o') (heq : o.buffer = o'.buffer) : k = l := by
  obtain ⟨H, W, -, hW, hS⟩ := hs
  by_contra hne
  obtain ⟨rest, rfl, hset⟩ := hW.split (lt_of_writable ho)
  have hrest : Holds (s.writables.set k none) rest := by simpa using hset none
  have hmem : o' ∈ rest := hrest.mem ((writable_set_of_ne (fun h => hne h.symm) none).trans ho')
  have htok : s.writables[k]?.join = some o := ho
  rw [htok, Heap.tokens_some_add] at hS
  exact hS.buffer_ne o' hmem heq.symm

/-- An address is allocated if and only if some object points to it. -/
theorem Core.held (hs : s.Core) (a : ℕ) : (s.heap.get a).isSome ↔
    (∃ i, ∃ h ∈ s.handle i, h.storage = a) ∨ ∃ k, ∃ o ∈ s.writable k, o.buffer = a := by
  obtain ⟨H, W, hH, hW, hS⟩ := hs
  constructor
  · intro hsome
    have hcell := hS.cell a
    have hhandle : ∀ h ∈ H.filter (·.storage = a), ∃ i, ∃ h ∈ s.handle i, h.storage = a := by
      intro h hh
      obtain ⟨i, hi⟩ := hH.exists_of_mem (Multiset.mem_filter.1 hh).1
      exact ⟨i, h, hi, (Multiset.mem_filter.1 hh).2⟩
    have howner : ∀ o ∈ W.filter (·.buffer = a), ∃ k, ∃ o ∈ s.writable k, o.buffer = a := by
      intro o ho
      obtain ⟨k, hk⟩ := hW.exists_of_mem (Multiset.mem_filter.1 ho).1
      exact ⟨k, o, hk, (Multiset.mem_filter.1 ho).2⟩
    generalize H.filter (·.storage = a) = P at hcell hhandle
    generalize W.filter (·.buffer = a) = Q at hcell howner
    generalize s.heap.get a = y at hcell hsome
    cases hcell with
    | free => cases hsome
    | @owned x o _ => exact .inr (howner o (Multiset.mem_singleton_self o))
    | @shared x n f hn _ _ => exact .inl (hhandle ⟨a, f⟩ (Multiset.mem_replicate.2 ⟨hn.ne', rfl⟩))
  · rintro (⟨i, h, hi, rfl⟩ | ⟨k, o, hk, rfl⟩)
    · obtain ⟨x, n, hget, -⟩ := hS.of_handle (hH.mem hi)
      simp [hget]
    · obtain ⟨x, hget, -⟩ := hS.of_owner (hW.mem hk)
      simp [hget]

/-- **The objects that agree with the heap are counted exactly.** -/
theorem Core.exact (hs : s.Core) : s.Exact := by
  obtain ⟨H, W, hH, hW, hS⟩ := id hs
  have hstorage : ∀ i, ∀ h ∈ s.handle i, ∃ x, s.heap.get h.storage = some x ∧
      x.refCounter = s.count h.storage ∧ s.heap.frames[h.frame]? = some x.data := by
    intro i h hi
    obtain ⟨x, n, hget, hx, -, -, hall, -⟩ := hS.of_handle (hH.mem hi)
    refine ⟨x, hget, ?_, hx.frame⟩
    rw [hx.refCounter, ← card_filter_storage hH, hall, Multiset.card_replicate]
  refine ⟨?_, ?_, ?_, ?_, fun k l o ho o' ho' => hs.unique ho ho', hs.held, ?_⟩
  · intro i h hi
    obtain ⟨x, hget, hcount, -⟩ := hstorage i h hi
    exact ⟨x, hget, hcount⟩
  · intro i h hi
    obtain ⟨x, hget, -, hframe⟩ := hstorage i h hi
    rw [Sharing.bytes, hget, hframe]
    rfl
  · intro i j h hi h' hj
    refine ⟨hS.frame_inj h (hH.mem hi) h' (hH.mem hj), fun heq => ?_⟩
    obtain ⟨x, n, -, -, -, -, hall, -⟩ := hS.of_handle (hH.mem hi)
    have hmem : h' ∈ H.filter (·.storage = h.storage) := Multiset.mem_filter.2 ⟨hH.mem hj, heq.symm⟩
    rw [hall] at hmem
    rw [Multiset.eq_of_mem_replicate hmem]
  · exact fun i k h hi o hk => hS.storage_ne_buffer (hH.mem hi) (hW.mem hk)
  · intro f hf
    rw [hS.ended f]
    by_cases halive : s.Alive f
    · obtain ⟨i, h, hi, rfl⟩ := id halive
      exact .inl ⟨halive, if_neg fun hall => hall.2 h (hH.mem hi) rfl⟩
    · refine .inr ⟨halive, if_pos ⟨hf, fun h hh hframe => halive ?_⟩⟩
      obtain ⟨i, hi⟩ := hH.exists_of_mem hh
      exact ⟨i, h, hi, hframe⟩

/-- A handle that is named by no operation of a run is what it was. -/
theorem Inv.run (pool : MemoryPool) (later : List Action) (hI : s.Inv)
    (hmeets : Lib.Along (Sharing.step pool) Meets s later) :
    ∃ s', s.run pool later = some s' ∧ s'.Inv ∧ s.heap.frames <+: s'.heap.frames ∧
      ∀ i, ∀ h ∈ s.handle (i + 2), (∀ a ∈ later, .kept i ∉ a.names) → s'.handle (i + 2) = some h := by
  induction later generalizing s with
  | nil => exact ⟨s, rfl, hI, List.prefix_rfl, fun _ _ hh _ => hh⟩
  | cons a later ih =>
    obtain ⟨s₁, hstep, hI₁, hlater⟩ := hI.step pool a hmeets.1
    obtain ⟨s', hrun, hI', hframes, hkept⟩ := ih hI₁ (hmeets.2 s₁ hstep)
    refine ⟨s', Lib.foldlM_cons_eq_some.2 ⟨s₁, hstep, hrun⟩, hI', hlater.frames.trans hframes, ?_⟩
    intro i h hh hnames
    refine hkept i h ?_ fun b hb => hnames b (List.mem_cons_of_mem a hb)
    rw [Option.mem_def, ← hh]
    refine hlater.handles (i + 2) (lt_of_handle hh) ?_
    -- the only name of handle `i + 2` is `kept i`
    rintro (hle | ⟨g, hg, hresolve⟩)
    · omega
    · refine hnames a List.mem_cons_self ?_
      unfold Sharing.resolve at hresolve
      cases g with
      | packet =>
        simp only at hresolve
        split_ifs at hresolve
        cases hresolve
      | kept n =>
        simp only at hresolve
        split_ifs at hresolve
        obtain rfl : n = i := by simpa using hresolve
        exact hg

/-- **Shared frames are counted exactly and do not change.**  From the start, in every run in which no
storage with `2 ^ 32 - 1` handles gets one more, no step fails, the counter of each storage is the number
of its handles, and each frame ends once, with its last handle; and whatever is done afterwards, the
frames that there are keep their bytes, and a handle that is not touched still sees them. -/
theorem shared_frames_exact (pool : MemoryPool) (actions : List Action)
    (hmeets : Lib.Along (Sharing.step pool) Meets {} actions) :
    ∃ s, Sharing.run pool {} actions = some s ∧ s.Exact ∧
      ∀ later, Lib.Along (Sharing.step pool) Meets s later →
        ∃ s', s.run pool later = some s' ∧ s'.Exact ∧ s.heap.frames <+: s'.heap.frames ∧
          ∀ i, ∀ h ∈ s.handle (i + 2), (∀ a ∈ later, .kept i ∉ a.names) →
            s'.handle (i + 2) = some h ∧ (s.bytes h).isSome ∧ s'.bytes h = s.bytes h := by
  obtain ⟨s, hrun, hI, -, -⟩ := inv_start.run pool actions hmeets
  refine ⟨s, hrun, hI.core.exact, fun later hlater => ?_⟩
  obtain ⟨s', hrun', hI', hframes, hkept⟩ := hI.run pool later hlater
  refine ⟨s', hrun', hI'.core.exact, hframes, fun i h hh hnames => ?_⟩
  have hh' := hkept i h hh hnames
  obtain ⟨x, hget, -⟩ := hI.core.exact.refCounter (i + 2) h hh
  have hbytes : s.heap.frames[h.frame]? = some x.data := by
    rw [← hI.core.exact.bytes (i + 2) h hh, bytes, hget]
    rfl
  refine ⟨hh', by simp [bytes, hget], ?_⟩
  rw [hI'.core.exact.bytes (i + 2) h hh', hI.core.exact.bytes (i + 2) h hh, hbytes]
  obtain ⟨tail, htail⟩ := hframes
  rw [← htail, List.getElem?_append_left (List.getElem?_eq_some_iff.1 hbytes).1, hbytes]

/-- A handler keeps a copy of a frame. -/
def keepCopy : List Action :=
  [.pushData ⟨[16, 7, 8], by decide⟩ true, .advance, .advance, .copyConstruct .packet, .finish]

/-- The next frame is received, and its handler keeps nothing. -/
def receiveNext : List Action :=
  [.pushData ⟨[16, 9, 10], by decide⟩ true, .advance, .advance, .finish]

/-- A copy that a handler has kept, after the next frame. -/
theorem shared_frames_exact_kept : ∃ s s', Sharing.run .zeroed {} keepCopy = some s ∧ s.Exact ∧
    s.run .zeroed receiveNext = some s' ∧ s'.Exact ∧ s'.handle 2 = some ⟨0, 0⟩ ∧
      s'.bytes ⟨0, 0⟩ = some [16, 7, 8] := by
  obtain ⟨s, hrun, hexact, hlater⟩ := shared_frames_exact .zeroed keepCopy (by decide +kernel)
  have hmeets : ∀ s ∈ Sharing.run .zeroed {} keepCopy, Lib.Along (Sharing.step .zeroed) Meets s receiveNext := by
    decide +kernel
  have hkept : ∀ s ∈ Sharing.run .zeroed {} keepCopy,
      s.handle 2 = some ⟨0, 0⟩ ∧ s.bytes ⟨0, 0⟩ = some [16, 7, 8] := by
    decide +kernel
  obtain ⟨s', hrun', hexact', -, hsame⟩ := hlater receiveNext (hmeets s hrun)
  obtain ⟨hhandle, -, hbytes⟩ := hsame 0 ⟨0, 0⟩ (hkept s hrun).1 (by decide +kernel)
  exact ⟨s, s', hrun, hexact, hrun', hexact', hhandle, hbytes.trans (hkept s hrun).2⟩

/-! ### The counter has 32 bits -/

/-- Copies of a handle, as many as one likes. -/
theorem run_copies (pool : MemoryPool) (n : ℕ) {x : Allocation} (hh : s.handle (i + 2) = some h)
    (hget : s.heap.get h.storage = some x) (hlt : x.refCounter < 2 ^ 32) :
    ∃ s' x', s.run pool (List.replicate n (.copyConstruct (.kept i))) = some s' ∧ s'.handle (i + 2) = some h ∧
      s'.heap.get h.storage = some x' ∧ x'.refCounter = (x.refCounter + n) % 2 ^ 32 ∧
      s'.count h.storage = s.count h.storage + n := by
  induction n generalizing s x with
  | zero => exact ⟨s, x, rfl, hh, hget, (Nat.mod_eq_of_lt hlt).symm, rfl⟩
  | succ n ih =>
    let x₁ : Allocation := { x with refCounter := increment x.refCounter }
    let s₁ : Sharing := { s with heap := s.heap.put h.storage (some x₁), handles := s.handles ++ [some h] }
    have hi := lt_of_handle hh
    have hstep : s.step pool (.copyConstruct (.kept i)) = some s₁ := by
      simp only [Sharing.step, Sharing.on, Sharing.resolve, if_pos hi, Sharing.copyConstruct, hh, Heap.ref_eq hget,
        Option.bind_eq_bind, Option.bind_some, Option.pure_def]
      rfl
    have hh₁ : s₁.handle (i + 2) = some h := by
      rw [← hh]
      simp only [handle, s₁, List.getElem?_append_left hi]
    have hcount : s₁.count h.storage = s.count h.storage + 1 := by simp [count, s₁]
    obtain ⟨s', x', hrun, hh', hget', href, hcount'⟩ := ih hh₁ (Heap.get_put_self (Heap.lt_of_get hget))
      (Nat.mod_lt _ (by norm_num))
    refine ⟨s', x', Lib.foldlM_cons_eq_some.2 ⟨s₁, hstep, hrun⟩, hh', hget', ?_, by omega⟩
    rw [href]
    simp only [x₁, increment, Nat.mod_add_mod]
    congr 1
    omega

/-- A frame is made and shared. -/
def shareOne : List Action :=
  [.newWritable,
    .write 0 ⟨⟨List.replicate 64 0, 1, 32, 32, 0⟩, ⟨by decide, by decide, by decide⟩, by decide⟩,
    .construct 0]

/-- **A counter of 32 bits wraps**: with `2 ^ 32` copies of a handle it is `1`. -/
theorem refCounter_wraps : ∃ s h x,
    Sharing.run .zeroed {} (shareOne ++ List.replicate (2 ^ 32) (.copyConstruct (.kept 0))) = some s ∧
      s.handle 2 = some h ∧ s.heap.get h.storage = some x ∧ x.refCounter = 1 ∧ s.count h.storage = 2 ^ 32 + 1 := by
  have hstart : ∃ s ∈ Sharing.run .zeroed {} shareOne, s.handle 2 = some ⟨0, 0⟩ ∧ s.count 0 = 1 ∧
      (s.heap.get 0).map Allocation.refCounter = some 1 := by
    decide +kernel
  obtain ⟨s, hrun, hh, hcount, href⟩ := hstart
  obtain ⟨x, hget, href⟩ := Option.map_eq_some_iff.1 href
  obtain ⟨s', x', hcopies, hh', hget', href', hcount'⟩ :=
    run_copies .zeroed (2 ^ 32) hh hget (by rw [href]; norm_num)
  refine ⟨s', ⟨0, 0⟩, x', ?_, hh', hget', by rw [href', href]; norm_num, by rw [hcount', hcount, add_comm]⟩
  unfold Sharing.run at *
  rw [List.foldlM_append, hrun]
  exact hcopies

end Sharing
end Framing
end ICon7
