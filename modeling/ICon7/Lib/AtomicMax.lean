/-
# Raising a shared value to a maximum

Threads that each have a value of their own raise a shared one to at least theirs: load
it, and as long as it is smaller, try to exchange it for the own value, which fails if
another thread was faster, or for no reason at all.

A step never lowers the shared value (`Raise.le_step`) and changes it to the own value
only (`Raise.step_eq`), and a thread that is done has reached its aim (`Raise.Ok.step`),
whatever the others did in between (`Raise.Ok.mono`).
-/

import Mathlib.Order.Lattice
import Mathlib.Order.Defs.LinearOrder

namespace ICon7
namespace Lib

/-- Where a thread is: before the load, before a comparison with the value it has seen, or done. -/
inductive Raise (α : Type*) where
  | load
  | compare (v : α)
  | done
deriving DecidableEq, Repr

namespace Raise

variable {α : Type*} [LinearOrder α] {shared shared' x : α} {r : Raise α}

/-- One atomic step of a thread with the value `x`: what is shared, and where the thread is.  An
exchange may fail for no reason. -/
def step (shared x : α) (fails : Bool) : Raise α → α × Raise α
  | load => (shared, compare shared)
  | compare v =>
    if v < x then
      if shared = v ∧ fails = false then (x, done) else (shared, compare shared)
    else (shared, done)
  | done => (shared, done)

/-- What a thread knows of the shared value. -/
def Ok (shared x : α) : Raise α → Prop
  | load => True
  | compare v => v ≤ shared
  | done => x ≤ shared

/-- It stays true when the shared value grows. -/
theorem Ok.mono (h : r.Ok shared x) (hle : shared ≤ shared') : r.Ok shared' x := by
  cases r with
  | load => trivial
  | compare v => exact le_trans h hle
  | done => exact le_trans h hle

theorem step_eq (shared x : α) (fails : Bool) (r : Raise α) :
    (r.step shared x fails).1 = shared ∨ (r.step shared x fails).1 = x := by
  cases r with
  | load => exact .inl rfl
  | compare v =>
    simp only [step]
    split_ifs
    · exact .inr rfl
    · exact .inl rfl
    · exact .inl rfl
  | done => exact .inl rfl

/-- **The shared value never falls.** -/
theorem le_step (shared x : α) (fails : Bool) (r : Raise α) : shared ≤ (r.step shared x fails).1 := by
  cases r with
  | load => exact le_rfl
  | compare v =>
    simp only [step]
    split_ifs with hlt heq
    · obtain ⟨rfl, -⟩ := heq
      exact hlt.le
    · exact le_rfl
    · exact le_rfl
  | done => exact le_rfl

/-- **A thread that is done has reached its aim.** -/
theorem Ok.step (h : r.Ok shared x) (fails : Bool) :
    (r.step shared x fails).2.Ok (r.step shared x fails).1 x := by
  cases r with
  | load => exact le_rfl
  | compare v =>
    simp only [Raise.step]
    split_ifs with hlt
    · exact le_rfl
    · exact le_rfl
    · exact le_trans (not_lt.mp hlt) h
  | done => exact h

end Raise
end Lib
end ICon7
