/-
# Queues with an order per producer

A concurrent queue that many producers fill keeps the order of each of them and promises
nothing about the others: whoever takes elements out gets, for any choice of producers,
the oldest element of each in turn.  `dequeueBulk` is such a choice, and
`ofProducer_dequeueBulk` is what is left of the order: seen by one producer, the batch and
the rest are the queue.
-/

import Mathlib.Tactic

namespace ICon7
namespace Lib

variable {α π : Type} [DecidableEq π] (producer : α → π)

/-- The elements of one producer. -/
def ofProducer (p : π) (l : List α) : List α := l.filter fun a => producer a = p

@[simp] theorem ofProducer_nil (p : π) : ofProducer producer p [] = [] := rfl

@[simp] theorem ofProducer_append (p : π) (l m : List α) :
    ofProducer producer p (l ++ m) = ofProducer producer p l ++ ofProducer producer p m :=
  List.filter_append ..

theorem ofProducer_cons (p : π) (a : α) (l : List α) :
    ofProducer producer p (a :: l) = ofProducer producer p [a] ++ ofProducer producer p l :=
  ofProducer_append producer p [a] l

/-- The oldest element of a producer, and the others. -/
def takeFirst (p : π) : List α → Option (α × List α)
  | [] => none
  | a :: l =>
    if producer a = p then some (a, l)
    else do
      let (b, m) ← takeFirst p l
      return (b, a :: m)

/-- The oldest elements of the producers, one after the other, and what is left. -/
def dequeueBulk : List α → List π → Option (List α × List α)
  | l, [] => some ([], l)
  | l, p :: ps => do
    let (a, l) ← takeFirst producer p l
    let (batch, l) ← dequeueBulk l ps
    return (a :: batch, l)

variable {producer}

/-- What is taken is the producer's. -/
theorem producer_of_takeFirst {p : π} {l m : List α} {a : α}
    (h : takeFirst producer p l = some (a, m)) : producer a = p := by
  induction l generalizing m with
  | nil => cases h
  | cons b l ih =>
    unfold takeFirst at h
    split_ifs at h with hb
    · obtain ⟨rfl, -⟩ := Prod.mk.inj (Option.some.inj h)
      exact hb
    · obtain ⟨⟨c, m'⟩, hc, h⟩ := Option.bind_eq_some_iff.1 h
      obtain ⟨rfl, -⟩ := Prod.mk.inj (Option.some.inj h)
      exact ih hc

/-- A producer with an element in the queue has an oldest one. -/
theorem exists_takeFirst {p : π} {l : List α} (h : ∃ a ∈ l, producer a = p) :
    ∃ a m, takeFirst producer p l = some (a, m) := by
  induction l with
  | nil => simp at h
  | cons b l ih =>
    unfold takeFirst
    split_ifs with hb
    · exact ⟨b, l, rfl⟩
    · obtain ⟨a, m, ham⟩ := ih (by simpa [hb] using h)
      exact ⟨a, b :: m, by simp [ham]⟩

/-- What is taken and what is left are the queue. -/
theorem perm_takeFirst {p : π} {l m : List α} {a : α} (h : takeFirst producer p l = some (a, m)) :
    l.Perm (a :: m) := by
  induction l generalizing m with
  | nil => cases h
  | cons b l ih =>
    unfold takeFirst at h
    split_ifs at h
    · obtain ⟨rfl, rfl⟩ := Prod.mk.inj (Option.some.inj h)
      exact .refl _
    · obtain ⟨⟨c, m'⟩, hc, h⟩ := Option.bind_eq_some_iff.1 h
      obtain ⟨rfl, rfl⟩ := Prod.mk.inj (Option.some.inj h)
      exact ((ih hc).cons b).trans (.swap ..)

/-- Taking the oldest element of a producer keeps the order of each. -/
theorem ofProducer_takeFirst {p : π} {l m : List α} {a : α} (h : takeFirst producer p l = some (a, m))
    (q : π) : ofProducer producer q l = ofProducer producer q [a] ++ ofProducer producer q m := by
  induction l generalizing m with
  | nil => cases h
  | cons b l ih =>
    unfold takeFirst at h
    split_ifs at h with hb
    · obtain ⟨rfl, rfl⟩ := Prod.mk.inj (Option.some.inj h)
      exact ofProducer_cons ..
    · obtain ⟨⟨c, m'⟩, hc, h⟩ := Option.bind_eq_some_iff.1 h
      obtain ⟨rfl, rfl⟩ := Prod.mk.inj (Option.some.inj h)
      have hc' := ih hc
      by_cases hq : producer b = q
      · -- then the element is of another producer
        have hcp : producer c = p := producer_of_takeFirst hc
        have hne : ¬producer c = q := fun hcq => hb (hq.trans (hcq.symm.trans hcp))
        simp only [ofProducer, List.filter_cons, hq, hne, decide_true, decide_false, if_true,
          List.filter_nil, List.nil_append, Bool.false_eq_true, if_false] at hc' ⊢
        rw [hc']
      · simp only [ofProducer, List.filter_cons, hq, decide_false, Bool.false_eq_true, if_false] at hc' ⊢
        exact hc'

/-- **Seen by one producer, the batch and the rest are the queue.** -/
theorem ofProducer_dequeueBulk {l m batch : List α} {ps : List π}
    (h : dequeueBulk producer l ps = some (batch, m)) (q : π) :
    ofProducer producer q l = ofProducer producer q batch ++ ofProducer producer q m := by
  induction ps generalizing l batch with
  | nil =>
    obtain ⟨rfl, rfl⟩ := Prod.mk.inj (Option.some.inj h)
    rfl
  | cons p ps ih =>
    obtain ⟨⟨a, l'⟩, ha, h⟩ := Option.bind_eq_some_iff.1 h
    obtain ⟨⟨batch', m'⟩, hb, h⟩ := Option.bind_eq_some_iff.1 h
    obtain ⟨rfl, rfl⟩ := Prod.mk.inj (Option.some.inj h)
    rw [ofProducer_takeFirst ha, ih hb, ofProducer_cons producer q a batch', List.append_assoc]

/-- There is one element for each producer that is asked. -/
theorem length_dequeueBulk {l m batch : List α} {ps : List π}
    (h : dequeueBulk producer l ps = some (batch, m)) : batch.length = ps.length := by
  induction ps generalizing l batch with
  | nil =>
    obtain ⟨rfl, rfl⟩ := Prod.mk.inj (Option.some.inj h)
    rfl
  | cons p ps ih =>
    obtain ⟨⟨a, l'⟩, -, h⟩ := Option.bind_eq_some_iff.1 h
    obtain ⟨⟨batch', m'⟩, hb, h⟩ := Option.bind_eq_some_iff.1 h
    obtain ⟨rfl, rfl⟩ := Prod.mk.inj (Option.some.inj h)
    rw [List.length_cons, List.length_cons, ih hb]

/-- The batch and the rest have the elements of the queue. -/
theorem mem_dequeueBulk {l m batch : List α} {ps : List π}
    (h : dequeueBulk producer l ps = some (batch, m)) (a : α) : a ∈ l ↔ a ∈ batch ∨ a ∈ m := by
  have hmem : ∀ k : List α, a ∈ k ↔ a ∈ ofProducer producer (producer a) k := by simp [ofProducer]
  rw [hmem l, hmem batch, hmem m, ofProducer_dequeueBulk h, List.mem_append]

/-- Asking for as many elements as there are of each producer, in the order they came in, empties
the queue. -/
theorem dequeueBulk_all (producer : α → π) (l : List α) :
    dequeueBulk producer l (l.map producer) = some (l, []) := by
  induction l with
  | nil => rfl
  | cons a l ih => simp [dequeueBulk, takeFirst, ih]

end Lib
end ICon7
