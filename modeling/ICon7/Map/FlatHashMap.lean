/-
# The flat hash map

`FlatHashMap` of `include/icon7/FlatHashMap.hpp`: all pairs in one vector
`buckets`, each with the index of the next pair of its chain, and a vector
`heads` with the first index of every chain.  Indices are one above the position
in `buckets`, `0` ends a chain.

This file is the code.  A vector access, a dereference or an `assert` that fails
is `none`, and so is a loop that does not end: the walk of a chain has as much
fuel as there are buckets, the doubling in `RoundCapacity` as much as a
`uint32_t` can be shifted, and a rehash started by the reinsertion of another
rehash is `none` as well.  `V`'s move assignment is a parameter, since a type may refuse it (`CommandHandle`
does on a non-empty target).
-/

import ICon7.Lib.Chain
import ICon7.Lib.SwapRemove

namespace ICon7

/-- `FlatHashMap::Pair`. -/
structure Pair (K V : Type) where
  key : K
  v : V
  next : ℕ
deriving DecidableEq, Repr

/-- What the map takes from its type arguments: `THash::hash(key, base)`, and
`target = std::move(value)` as a function of both. -/
structure MapTraits (K V : Type) where
  hash : K → UInt64 → UInt32
  assign : V → V → V

/-- A value type whose move assignment stores the value. -/
def MapTraits.regular {K V : Type} (hash : K → UInt64 → UInt32) : MapTraits K V where
  hash := hash
  assign _ v := v

structure FlatHashMap (K V : Type) where
  heads : List ℕ
  buckets : List (Pair K V)
  baseHash : UInt64
deriving DecidableEq, Repr

/-- `FlatHashMap::PairIds`. -/
structure PairIds where
  current : ℕ
  prev : ℕ
deriving DecidableEq, Repr

/-- `while (capacity < newCapacity) capacity <<= 1` on `uint32_t`. -/
def roundCapacityLoop (newCapacity : ℕ) : ℕ → ℕ → Option ℕ
  | 0, _ => none
  | fuel + 1, capacity =>
    if capacity < newCapacity then roundCapacityLoop newCapacity fuel ((capacity <<< 1) % 2 ^ 32)
    else some capacity

/-- `RoundCapacity`. -/
def roundCapacity (newCapacity min : ℕ) : Option ℕ :=
  let minCap := (min + min >>> 1 + 5) % 2 ^ 32
  let newCapacity := if newCapacity < minCap then minCap else newCapacity
  roundCapacityLoop newCapacity 32 16

namespace FlatHashMap

variable {K V : Type} [DecidableEq K]

/-- `FlatHashMap(uint32_t initialCapacity)`. -/
def ofCapacity (baseHash : UInt64) (initialCapacity : UInt32) : Option (FlatHashMap K V) := do
  let initialCapacity := if initialCapacity < 16 then 16 else initialCapacity
  guard (initialCapacity &&& (initialCapacity - 1) = 0)
  return ⟨List.replicate initialCapacity.toNat 0, [], baseHash⟩

variable (T : MapTraits K V)

/-- `Bucket`. -/
def bucket (m : FlatHashMap K V) (key : K) : Option ℕ := do
  guard (m.heads.length &&& (m.heads.length - 1) = 0)
  return (T.hash key m.baseHash &&& (UInt32.ofNat m.heads.length - 1)).toNat

/-- The walk of `GetElement` from index `i`, reached from `prev`. -/
def getElementLoop (buckets : List (Pair K V)) (key : K) : ℕ → ℕ → ℕ → Option PairIds
  | _, _, 0 => some ⟨0, 0⟩
  | 0, _, _ + 1 => none
  | fuel + 1, prev, i + 1 => do
    let bucket ← buckets[i]?
    if bucket.key = key then return ⟨i + 1, prev⟩
    getElementLoop buckets key fuel (i + 1) bucket.next

/-- `GetElement`. -/
def getElement (m : FlatHashMap K V) (key : K) (bucketHead : ℕ) : Option PairIds := do
  guard (m.bucket T key = some bucketHead)
  let bucket ← m.heads[bucketHead]?
  getElementLoop m.buckets key m.buckets.length 0 bucket

/-- `_Insert`, with the rehash it may call. -/
def insertWith (rehash : FlatHashMap K V → ℕ → Option (FlatHashMap K V)) (m : FlatHashMap K V)
    (key : K) (value : V) (bucketHead : ℕ) : Option (FlatHashMap K V) := do
  let (m, bucketHead) ←
    if m.heads.length < m.buckets.length + m.buckets.length >>> 1 then do
      let m ← rehash m ((m.heads.length <<< 1) % 2 ^ 32)
      let bucketHead ← m.bucket T key
      pure (m, bucketHead)
    else pure (m, bucketHead)
  let next ← m.heads[bucketHead]?
  let current := (m.buckets.length + 1) % 2 ^ 32
  return { m with
    buckets := m.buckets ++ [⟨key, value, next⟩]
    heads := m.heads.set bucketHead current }

/-- `Rehash`, at most `depth` deep.  `heads.resize` appends zeros, and the loop after
it writes `heads[i]` for every `i` below the old size. -/
def rehashNested : ℕ → FlatHashMap K V → ℕ → Option (FlatHashMap K V)
  | 0, _, _ => none
  | depth + 1, m, newCapacity => do
    let capacity ← roundCapacity newCapacity (m.buckets.length % 2 ^ 32)
    let oldSize := m.heads.length
    guard (oldSize ≤ capacity)
    let heads := List.replicate oldSize 0 ++ List.replicate (capacity - oldSize) 0
    m.buckets.foldlM (fun m p => do
      let bucketHead ← m.bucket T p.key
      insertWith T (rehashNested depth) m p.key p.v bucketHead) { m with heads, buckets := [] }

/-- `Rehash`, outside of any other. -/
def rehash : FlatHashMap K V → ℕ → Option (FlatHashMap K V) := rehashNested T 1

/-- `_Insert`. -/
def _insert : FlatHashMap K V → K → V → ℕ → Option (FlatHashMap K V) := insertWith T (rehash T)

/-- `InsertOrSet(K &&key, V &&value)`; the other overloads copy and call it. -/
def insertOrSet (m : FlatHashMap K V) (key : K) (value : V) : Option (FlatHashMap K V) := do
  let bucketHead ← m.bucket T key
  let elemIds ← m.getElement T key bucketHead
  if elemIds.current = 0 then
    m._insert T key value bucketHead
  else
    let elem ← m.buckets[elemIds.current - 1]?
    return { m with
      buckets := m.buckets.set (elemIds.current - 1) { elem with v := T.assign elem.v value } }

/-- `Get`; the inner `none` is the null pointer. -/
def get (m : FlatHashMap K V) (key : K) : Option (Option V) := do
  let bucketHead ← m.bucket T key
  let elemIds ← m.getElement T key bucketHead
  if elemIds.current = 0 then return none
  let elem ← m.buckets[elemIds.current - 1]?
  return some elem.v

/-- `Get`, as the place of the pair whose value the pointer points to. -/
def find (m : FlatHashMap K V) (key : K) : Option (Option ℕ) := do
  let bucketHead ← m.bucket T key
  let elemIds ← m.getElement T key bucketHead
  if elemIds.current = 0 then return none
  return some (elemIds.current - 1)

/-- A write through a pointer to the value of the pair at the place. -/
def store (m : FlatHashMap K V) (j : ℕ) (v : V) : FlatHashMap K V :=
  { m with buckets := m.buckets.modify j fun p => { p with v } }

/-- `Has`. -/
def has (m : FlatHashMap K V) (key : K) : Option Bool := do
  let v ← m.get T key
  return v.isSome

/-- `Size`. -/
def size (m : FlatHashMap K V) : ℕ := m.buckets.length % 2 ^ 32

/-- The write of one link: `heads[bucketHead]` when there is no predecessor, the
predecessor's `next` otherwise. -/
def setLink (m : FlatHashMap K V) (bucketHead prev target : ℕ) : Option (FlatHashMap K V) :=
  if prev = 0 then do
    guard (bucketHead < m.heads.length)
    return { m with heads := m.heads.set bucketHead target }
  else do
    let p ← m.buckets[prev - 1]?
    return { m with buckets := m.buckets.set (prev - 1) { p with next := target } }

/-- `buckets[hole] = std::move(buckets.back()); buckets.resize(buckets.size() - 1)`. -/
def moveLast (m : FlatHashMap K V) (hole : ℕ) : Option (FlatHashMap K V) := do
  let target ← m.buckets[hole]?
  let last ← m.buckets.getLast?
  return { m with
    buckets := (m.buckets.set hole ⟨last.key, T.assign target.v last.v, last.next⟩).dropLast }

/-- `Remove`. -/
def remove (m : FlatHashMap K V) (key : K) : Option (FlatHashMap K V) := do
  if m.buckets.length = 0 then return m
  if m.buckets.length = 1 then
    let first ← m.buckets[0]?
    if first.key = key then
      let bucketHead ← m.bucket T key
      guard (m.heads[bucketHead]? = some 1)
      return { m with heads := m.heads.set bucketHead 0, buckets := [] }
    return m
  let bucketHeadRem ← m.bucket T key
  let pairRem ← m.getElement T key bucketHeadRem
  if pairRem.current = 0 then return m
  let removed ← m.buckets[pairRem.current - 1]?
  let m ← m.setLink bucketHeadRem pairRem.prev removed.next
  if pairRem.current = m.buckets.length then
    return { m with buckets := m.buckets.dropLast }
  let last ← m.buckets.getLast?
  let bucketHeadLast ← m.bucket T last.key
  let pairLast ← m.getElement T last.key bucketHeadLast
  let prevLast := if pairLast.prev = pairRem.current then pairRem.prev else pairLast.prev
  let m ← m.moveLast T (pairRem.current - 1)
  m.setLink bucketHeadLast prevLast pairRem.current

/-- `Clear`. -/
def clear (m : FlatHashMap K V) : FlatHashMap K V :=
  if m.buckets.length = 0 then m
  else { m with buckets := [], heads := m.heads.map fun _ => 0 }

end FlatHashMap
end ICon7
