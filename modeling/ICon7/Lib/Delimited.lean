/-
# Streams cut by self-delimiting frames

A stream over an alphabet `α` is a concatenation of frames, and a frame says
its own length: a `Delimiter` reads that length off any prefix that holds
enough of the frame, and reading more of the stream does not change it.

`Delimiter.parse` cuts a stream into its whole frames and the rest that is not
a whole frame yet.  Nothing is lost (`parse_flatten`), the rest of one stream
in front of the next continues the cut (`parse_append`), so that a decoder that
keeps the rest between two pieces of input cuts them as it cuts their
concatenation, and a concatenation of frames is cut back into them
(`parse_frames`).
-/

import Mathlib.Tactic

namespace ICon7
namespace Lib

variable {α : Type*}

/-- A way to read the length of the first frame off a stream.  `none` means that
the stream is too short to tell. -/
structure Delimiter (α : Type*) where
  len : List α → Option ℕ
  len_pos : ∀ {s n}, len s = some n → 0 < n
  len_append : ∀ {s n} (t : List α), len s = some n → len (s ++ t) = some n

namespace Delimiter

variable (D : Delimiter α)

/-- The whole frames of a stream, and the rest. -/
def parse (s : List α) : List (List α) × List α :=
  match _h : D.len s with
  | none => ([], s)
  | some n =>
    if _hn : n ≤ s.length then
      let r := parse (s.drop n)
      (s.take n :: r.1, r.2)
    else ([], s)
termination_by s.length
decreasing_by
  have := D.len_pos ‹_›
  simp only [List.length_drop]
  omega

variable {D}

/-- A stream that does not hold a whole frame is its own rest. -/
theorem parse_of_lt {s : List α} (h : ∀ n, D.len s = some n → s.length < n) :
    D.parse s = ([], s) := by
  rw [parse]
  split
  · rfl
  · rename_i n hn
    rw [dif_neg (by have := h n hn; omega)]

/-- A stream that holds a whole frame is cut after it. -/
theorem parse_of_le {s : List α} {n : ℕ} (hn : D.len s = some n) (hle : n ≤ s.length) :
    D.parse s = (s.take n :: (D.parse (s.drop n)).1, (D.parse (s.drop n)).2) := by
  conv_lhs => rw [parse]
  split
  · simp_all
  · rename_i m hm
    obtain rfl : n = m := by simpa [hn] using hm
    rw [dif_pos hle]

@[simp] theorem parse_nil : D.parse [] = ([], []) :=
  parse_of_lt fun _ h => D.len_pos h

/-- **A cut loses nothing:** the frames and the rest are the stream. -/
theorem parse_flatten (s : List α) : (D.parse s).1.flatten ++ (D.parse s).2 = s := by
  induction s using parse.induct D with
  | case1 s h => rw [parse_of_lt (by simp [h])]; rfl
  | case2 s n h hle ih =>
    rw [parse_of_le h hle, List.flatten_cons, List.append_assoc, ih, List.take_append_drop]
  | case3 s n h hlt =>
    rw [parse_of_lt (fun m hm => by simp_all)]; rfl

/-- The rest holds no whole frame. -/
theorem parse_rest_lt (s : List α) {n : ℕ} (h : D.len (D.parse s).2 = some n) :
    (D.parse s).2.length < n := by
  induction s using parse.induct D with
  | case1 s hnone => rw [parse_of_lt (by simp [hnone])] at h ⊢; simp_all
  | case2 s m hm hle ih =>
    rw [parse_of_le hm hle] at h ⊢
    exact ih h
  | case3 s m hm hlt =>
    have hs : D.parse s = ([], s) := parse_of_lt (fun m hm => by simp_all)
    rw [hs] at h ⊢
    simp_all

/-- Every frame of the cut has the length that its stream says from there on. -/
theorem len_append_of_mem_parse (s : List α) {f : List α} (hf : f ∈ (D.parse s).1) :
    ∃ t, D.len (f ++ t) = some f.length := by
  induction s using parse.induct D with
  | case1 s hnone =>
    rw [parse_of_lt (by simp [hnone])] at hf
    simp at hf
  | case2 s n h hle ih =>
    rw [parse_of_le h hle] at hf
    rcases List.mem_cons.1 hf with rfl | hf
    · exact ⟨s.drop n, by rw [List.take_append_drop, List.length_take_of_le hle, h]⟩
    · exact ih hf
  | case3 s n h hlt =>
    rw [parse_of_lt (fun m hm => by simp_all)] at hf
    simp at hf

/-- **Keeping the rest is enough.**  Cutting the rest of `s` followed by `t` gives
the frames of `s ++ t` that cutting `s` has not given yet. -/
theorem parse_append (s t : List α) :
    D.parse (s ++ t) =
      ((D.parse s).1 ++ (D.parse ((D.parse s).2 ++ t)).1, (D.parse ((D.parse s).2 ++ t)).2) := by
  induction s using parse.induct D with
  | case1 s hnone => rw [parse_of_lt (s := s) (by simp [hnone])]; rfl
  | case2 s n h hle ih =>
    have happ : D.len (s ++ t) = some n := D.len_append t h
    rw [parse_of_le happ (by simp; omega), parse_of_le h hle, List.take_append_of_le_length hle,
      List.drop_append_of_le_length hle, ih]
    rfl
  | case3 s n h hlt => rw [parse_of_lt (s := s) (fun m hm => by simp_all)]; rfl

/-- A stream that begins with a whole frame is cut there. -/
theorem parse_frame_append {f : List α} (t : List α) (h : D.len f = some f.length) :
    D.parse (f ++ t) = (f :: (D.parse t).1, (D.parse t).2) := by
  rw [parse_of_le (D.len_append t h) (by simp), List.take_left, List.drop_left]

/-- **A concatenation of frames is cut back into them.** -/
theorem parse_frames {fs : List (List α)} (h : ∀ f ∈ fs, D.len f = some f.length) :
    D.parse fs.flatten = (fs, []) := by
  induction fs with
  | nil => exact parse_nil
  | cons f fs ih =>
    rw [List.flatten_cons, parse_frame_append _ (h f (List.mem_cons_self ..)),
      ih fun g hg => h g (List.mem_cons_of_mem _ hg)]

/-- **A piece of a concatenation of frames** is cut into the first of them, and the rest begins
the others. -/
theorem parse_of_append_eq_frames {fs : List (List α)} (h : ∀ f ∈ fs, D.len f = some f.length)
    {s t : List α} (hst : s ++ t = fs.flatten) :
    ∃ gs, fs = (D.parse s).1 ++ gs ∧ (D.parse s).2 ++ t = gs.flatten := by
  have hall := parse_frames h
  rw [← hst, parse_append] at hall
  obtain ⟨hfs, hrest⟩ := Prod.mk.inj hall
  have hflat := parse_flatten (D := D) ((D.parse s).2 ++ t)
  rw [hrest, List.append_nil] at hflat
  exact ⟨_, hfs.symm, hflat.symm⟩

end Delimiter
end Lib
end ICon7
