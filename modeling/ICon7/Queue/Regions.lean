/-
# The regions of a commands buffer

`Allocate` hands out regions of one allocation from its start, each aligned as it was asked to be,
while the table of their offsets grows from the end towards them.  All offsets are 32-bit numbers.

A run of a buffer is any sequence of `Allocate` and of writes by the owners of the regions, who may
put whatever they like into them.  Whatever the run, every region is aligned, behind the earlier
ones and in front of all table entries, and the table still leads to the regions
(`run_separate`).  That needs an allocation that ends well before `2 ^ 32`: the sum of an offset
and a size wraps around otherwise, and `capacityLimit` is the first capacity for which a run gets
there (`allocate_wraps`).
-/

import ICon7.Lib.Run
import ICon7.Queue.CommandsBuffer

namespace ICon7
namespace CommandsBuffer

/-- `GetCommand`, as the offset it returns a pointer to; `none` is a table entry that is not there. -/
def getCommandOffset (b : CommandsBuffer) (id : ℕ) : Option ℕ := do
  let data ← b.commandsBufferData
  match ← Lib.Memory.read BufferItem.size data (b.getMetadataOffset id) with
  | .metadata offset => return offset
  | .command _ => none

/-- The command that `GetCommand` finds is the one at that offset. -/
theorem getCommand_eq (b : CommandsBuffer) (id : ℕ) :
    b.getCommand id = (b.getCommandOffset id).bind fun offset => b.commandsBufferData.bind fun data =>
      (Lib.Memory.read BufferItem.size data offset).bind fun
        | .command c => some c
        | .metadata _ => none := by
  unfold getCommand getCommandOffset
  cases b.commandsBufferData with
  | none => rfl
  | some data =>
    simp only [Option.bind_eq_bind, Option.bind_some]
    cases Lib.Memory.read BufferItem.size data (b.getMetadataOffset id) with
    | none => rfl
    | some item => cases item <;> rfl

/-- What `Allocate` may be asked for. -/
structure Request where
  size : ℕ
  alignement : ℕ
  size_pos : 0 < size
  size_le : size ≤ 2 ^ 20
  alignement_eq : ∃ k ≤ 12, alignement = 2 ^ k

/-- A region that `Allocate` returned. -/
structure Region where
  offset : ℕ
  request : Request

/-- The first offset behind a region. -/
def Region.finish (g : Region) : ℕ := g.offset + g.request.size

/-- Write to a region. -/
def store (b : CommandsBuffer) (g : Region) (contents : Lib.Memory BufferItem) : CommandsBuffer :=
  { b with
    commandsBufferData := b.commandsBufferData.map fun data a =>
      if g.offset ≤ a ∧ a < g.finish then contents a else data a }

/-- What happens to a buffer: `Allocate`, and a write of any contents to the `i`-th region. -/
inductive RegionAction where
  | allocate (q : Request)
  | store (i : ℕ) (contents : Lib.Memory BufferItem)

/-- A buffer and the regions it has returned, in order. -/
structure RegionRun where
  buffer : CommandsBuffer
  regions : List Region := []

namespace RegionRun

/-- One action; a failed assertion is `none`, and there is nothing to write to without a region. -/
def step (r : RegionRun) : RegionAction → Option RegionRun
  | .allocate q => do
    match ← r.buffer.allocate q.size q.alignement with
    | (b, none) => return { r with buffer := b }
    | (b, some offset) => return { buffer := b, regions := r.regions ++ [⟨offset, q⟩] }
  | .store i contents =>
    match r.regions[i]? with
    | none => some r
    | some g => some { r with buffer := r.buffer.store g contents }

/-- The region and its table entry fit: there is an aligned offset behind all regions from which
the region ends in front of the new entry. -/
def Fits (capacity : ℕ) (r : RegionRun) (q : Request) : Prop :=
  ∃ o, q.alignement ∣ o ∧ (∀ g ∈ r.regions, g.finish ≤ o) ∧
    o + q.size + 4 * (r.regions.length + 1) ≤ capacity

/-- The regions of a buffer are separate: aligned, inside of the allocation, each behind all earlier
ones and in front of all entries of the table.  The table leads to them, `GetMetadataOffset` does
not wrap around for its entries and the next one, and `Allocate` returns the null pointer, with
nothing changed, exactly if there is no room. -/
structure Separate (capacity : ℕ) (r : RegionRun) : Prop where
  aligned : ∀ g ∈ r.regions, g.request.alignement ∣ g.offset
  inside : ∀ g ∈ r.regions, g.finish ≤ capacity
  ordered : r.regions.Pairwise fun g g' => g.finish ≤ g'.offset
  count : r.buffer.countCommands = r.regions.length
  table : ∀ i < r.buffer.countCommands, ∀ g ∈ r.regions, g.finish ≤ r.buffer.getMetadataOffset i
  commands : ∀ i g, r.regions[i]? = some g → r.buffer.getCommandOffset i = some g.offset
  noWrap : ∀ id ≤ r.buffer.countCommands, 4 * (id + 1) ≤ r.buffer.totalBytes ∧
    r.buffer.getMetadataOffset id = r.buffer.totalBytes - 4 * (id + 1)
  next : ∀ q : Request,
    (r.buffer.allocate q.size q.alignement = some (r.buffer, none) ∧ ¬ r.Fits capacity q) ∨
      ∃ b offset, r.buffer.allocate q.size q.alignement = some (b, some offset) ∧ r.Fits capacity q

/-- What every action keeps.  The regions end where the free space begins, so there are at most
`2 ^ 20` bytes in front of it for each of them. -/
structure Inv (capacity : ℕ) (r : RegionRun) : Prop where
  stored : ∃ data, r.buffer.commandsBufferData = some data ∧ ∀ i g, r.regions[i]? = some g →
    Lib.Memory.read BufferItem.size data (capacity - 4 * (i + 1)) = some (.metadata g.offset)
  total : r.buffer.totalBytes = capacity
  count : r.buffer.countCommands = r.regions.length
  aligned : ∀ g ∈ r.regions, g.request.alignement ∣ g.offset
  ends : ∀ g ∈ r.regions, g.finish ≤ r.buffer.offsetOfFree
  ordered : r.regions.Pairwise fun g g' => g.finish ≤ g'.offset
  free_least : ∀ o, (∀ g ∈ r.regions, g.finish ≤ o) → r.buffer.offsetOfFree ≤ o
  room : r.buffer.offsetOfFree + 4 * r.regions.length ≤ capacity
  length_le : r.regions.length ≤ r.buffer.offsetOfFree
  free_le : r.buffer.offsetOfFree ≤ r.regions.length * 2 ^ 20

/-- The first capacity that is too large. -/
def capacityLimit : ℕ := 2 ^ 32 - 2 ^ 20 + 12288

/-- A capacity for which offsets do not wrap around. -/
structure Capacity (capacity : ℕ) : Prop where
  pos : 0 < capacity
  dvd : 4 ∣ capacity
  lt : capacity < capacityLimit

variable {capacity : ℕ} {r : RegionRun}

theorem Capacity.lt_two_pow (hc : Capacity capacity) : capacity < 2 ^ 32 := by
  have := hc.lt
  unfold capacityLimit at this
  omega

namespace Inv

/-- Every region has a byte, so there is room for one more table entry. -/
theorem four_mul_succ_le (hc : Capacity capacity) (h : r.Inv capacity) :
    4 * (r.regions.length + 1) ≤ capacity := by
  have hpos := hc.pos
  have hdvd := hc.dvd
  have hroom := h.room
  have hle := h.length_le
  omega

/-- `GetMetadataOffset` does not wrap around. -/
theorem getMetadataOffset (hc : Capacity capacity) (h : r.Inv capacity) {id : ℕ}
    (hid : id ≤ r.regions.length) :
    4 * (id + 1) ≤ capacity ∧ r.buffer.getMetadataOffset id = capacity - 4 * (id + 1) := by
  have hle : 4 * (id + 1) ≤ capacity := by
    have := h.four_mul_succ_le hc
    omega
  have hlt := hc.lt_two_pow
  rw [← h.total] at hle hlt ⊢
  exact ⟨hle, getMetadataOffset_eq hle hlt⟩

/-- **The first free offset that is aligned as asked**, from which no region wraps around. -/
theorem getOffsetOfNextCommand (hc : Capacity capacity) (h : r.Inv capacity) (q : Request) :
    ∃ offset, r.buffer.getOffsetOfNextCommand q.alignement = some offset ∧
      r.buffer.offsetOfFree ≤ offset ∧ offset ≤ r.regions.length * 2 ^ 20 ∧
      offset + q.size < 2 ^ 32 ∧ q.alignement ∣ offset ∧
      ∀ o, q.alignement ∣ o → r.buffer.offsetOfFree ≤ o → offset ≤ o := by
  obtain ⟨k, hk, halign⟩ := q.alignement_eq
  have hsize := q.size_le
  have hlt := hc.lt
  unfold capacityLimit at hlt
  have hroom := h.room
  have hle := h.free_le
  have hpos := hc.pos
  have hdvd := hc.dvd
  have hpow : 2 ^ k ≤ 4096 := (Nat.pow_le_pow_right (by norm_num) hk).trans (by norm_num)
  obtain ⟨offset, hoff, hfree, hgap, haligned, hleast⟩ :=
    getOffsetOfNextCommand_spec hk (b := r.buffer) (by rw [h.total]; omega) (by omega)
  have hbound : offset ≤ r.regions.length * 2 ^ 20 :=
    hleast _ (Dvd.dvd.mul_left (Nat.pow_dvd_pow 2 (by omega)) _) h.free_le
  -- 4095 regions in front of an offset have 4095 table entries behind it
  have hend : offset + q.size < 2 ^ 32 := by omega
  rw [halign]
  exact ⟨offset, hoff, hfree, hbound, hend, haligned, hleast⟩

/-- The region fits exactly if it does at the first offset. -/
theorem fits_iff (h : r.Inv capacity) (q : Request) {offset : ℕ} (hfree : r.buffer.offsetOfFree ≤ offset)
    (hdvd : q.alignement ∣ offset)
    (hleast : ∀ o, q.alignement ∣ o → r.buffer.offsetOfFree ≤ o → offset ≤ o) :
    r.Fits capacity q ↔ offset + q.size + 4 * (r.regions.length + 1) ≤ capacity := by
  constructor
  · rintro ⟨o, halign, hends, hroom⟩
    have := hleast o halign (h.free_least o hends)
    omega
  · intro hroom
    exact ⟨offset, hdvd, fun g hg => (h.ends g hg).trans hfree, hroom⟩

/-- One more region, behind the others, with its entry in front of the table. -/
theorem concat (h : r.Inv capacity) {q : Request} {offset : ℕ} {data : Lib.Memory BufferItem}
    (hdata : r.buffer.commandsBufferData = some data) (hfree : r.buffer.offsetOfFree ≤ offset)
    (hbound : offset ≤ r.regions.length * 2 ^ 20) (hdvd : q.alignement ∣ offset)
    (hroom : offset + q.size + 4 * (r.regions.length + 1) ≤ capacity) :
    Inv capacity ⟨{ r.buffer with
      countCommands := r.regions.length + 1
      commandsBufferData := some (Lib.Memory.write BufferItem.size data
        (capacity - 4 * (r.regions.length + 1)) (.metadata offset))
      offsetOfFree := offset + q.size }, r.regions ++ [⟨offset, q⟩]⟩ := by
  have hpos := q.size_pos
  have hsize := q.size_le
  have hlen := h.length_le
  constructor
  case stored =>
    obtain ⟨data', hdata', hall⟩ := h.stored
    obtain rfl : data = data' := Option.some.inj (hdata.symm.trans hdata')
    refine ⟨_, rfl, fun i g hg => ?_⟩
    have h4 : (BufferItem.metadata offset).size = 4 := rfl
    rcases Nat.lt_trichotomy i r.regions.length with hi | rfl | hi
    · rw [List.getElem?_append_left hi] at hg
      have h4' : (BufferItem.metadata g.offset).size = 4 := rfl
      exact Lib.Memory.read_write_of_disjoint (by omega) (hall i g hg) (by omega)
    · obtain rfl : ⟨offset, q⟩ = g := by simpa using hg
      exact Lib.Memory.read_write _ _ (by omega)
    · rw [List.getElem?_eq_none (by simp; omega)] at hg
      cases hg
  case total => exact h.total
  case count => simp
  case aligned => exact List.forall_mem_append.2 ⟨h.aligned, by simpa using hdvd⟩
  case ends =>
    refine List.forall_mem_append.2 ⟨fun g hg => ?_, by simp [Region.finish]⟩
    have := h.ends g hg
    simp only
    omega
  case ordered =>
    refine List.pairwise_append.2 ⟨h.ordered, List.pairwise_singleton _ _, fun g hg g' hg' => ?_⟩
    obtain rfl := List.mem_singleton.1 hg'
    exact (h.ends g hg).trans hfree
  case free_least =>
    intro o ho
    exact ho ⟨offset, q⟩ (by simp)
  case room => simpa using hroom
  case length_le =>
    simp only [List.length_append, List.length_singleton]
    omega
  case free_le =>
    simp only [List.length_append, List.length_singleton]
    omega

/-- **`Allocate` either changes nothing, for want of room, or returns the first free offset.** -/
theorem allocate (hc : Capacity capacity) (h : r.Inv capacity) (q : Request) :
    (r.buffer.allocate q.size q.alignement = some (r.buffer, none) ∧ ¬ r.Fits capacity q) ∨
      ∃ b offset, r.buffer.allocate q.size q.alignement = some (b, some offset) ∧
        r.Fits capacity q ∧ Inv capacity ⟨b, r.regions ++ [⟨offset, q⟩]⟩ := by
  obtain ⟨offset, hoff, hfree, hbound, hend, hdvd, hleast⟩ := h.getOffsetOfNextCommand hc q
  obtain ⟨data, hdata, -⟩ := h.stored
  obtain ⟨h4, hmeta⟩ := h.getMetadataOffset hc le_rfl
  have hfits := h.fits_iff q hfree hdvd hleast
  rw [allocate_eq hdata hoff, h.count, hmeta, Nat.mod_eq_of_lt hend]
  by_cases hroom : offset + q.size + 4 * (r.regions.length + 1) ≤ capacity
  · right
    rw [if_pos (by omega)]
    exact ⟨_, offset, rfl, hfits.2 hroom, h.concat hdata hfree hbound hdvd hroom⟩
  · left
    rw [if_neg (by omega)]
    exact ⟨rfl, fun hf => hroom (hfits.1 hf)⟩

/-- Writing to a region keeps everything: the table is behind it. -/
theorem store (h : r.Inv capacity) {g : Region} (hg : g ∈ r.regions) (contents : Lib.Memory BufferItem) :
    Inv capacity { r with buffer := r.buffer.store g contents } := by
  obtain ⟨data, hdata, hall⟩ := h.stored
  refine ⟨⟨fun a => if g.offset ≤ a ∧ a < g.finish then contents a else data a, ?_, ?_⟩, h.total,
    h.count, h.aligned, h.ends, h.ordered, h.free_least, h.room, h.length_le, h.free_le⟩
  · simp [CommandsBuffer.store, hdata]
  · intro i g' hg'
    have hi : i < r.regions.length := (List.getElem?_eq_some_iff.1 hg').1
    have hends := h.ends g hg
    have hroom := h.room
    have h4 : 0 < (BufferItem.metadata g'.offset).size := Nat.zero_lt_succ 3
    have hread := (Lib.Memory.read_eq_some_iff h4).1 (hall i g' hg')
    rw [Lib.Memory.read_eq_some_iff h4]
    intro k hk
    rw [if_neg (by omega)]
    exact hread k hk

/-- One action. -/
theorem step (hc : Capacity capacity) (h : r.Inv capacity) (act : RegionAction) :
    ∃ r', r.step act = some r' ∧ r'.Inv capacity := by
  cases act with
  | allocate q =>
    rcases h.allocate hc q with ⟨hnull, -⟩ | ⟨b, offset, halloc, -, hinv⟩
    · exact ⟨r, by simp [RegionRun.step, hnull], h⟩
    · exact ⟨_, by simp [RegionRun.step, halloc], hinv⟩
  | store i contents =>
    cases hg : r.regions[i]? with
    | none => exact ⟨r, by simp [RegionRun.step, hg], h⟩
    | some g => exact ⟨_, by simp [RegionRun.step, hg], h.store (List.mem_of_getElem? hg) contents⟩

/-- The regions are separate. -/
theorem separate (hc : Capacity capacity) (h : r.Inv capacity) : r.Separate capacity := by
  have hroom := h.room
  constructor
  case aligned => exact h.aligned
  case inside =>
    intro g hg
    have := h.ends g hg
    omega
  case ordered => exact h.ordered
  case count => exact h.count
  case table =>
    intro i hi g hg
    rw [h.count] at hi
    rw [(h.getMetadataOffset hc hi.le).2]
    have := h.ends g hg
    omega
  case commands =>
    intro i g hg
    obtain ⟨data, hdata, hall⟩ := h.stored
    have hi : i < r.regions.length := (List.getElem?_eq_some_iff.1 hg).1
    simp [getCommandOffset, hdata, (h.getMetadataOffset hc hi.le).2, hall i g hg]
  case noWrap =>
    intro id hid
    rw [h.count] at hid
    rw [h.total]
    exact h.getMetadataOffset hc hid
  case next =>
    intro q
    rcases h.allocate hc q with hnull | ⟨b, offset, halloc, hfits, -⟩
    · exact .inl hnull
    · exact .inr ⟨b, offset, halloc, hfits⟩

end Inv

/-- A freshly initialised buffer has no regions. -/
theorem Inv.nil (hc : Capacity capacity) {b₀ b : CommandsBuffer} {events : List CommandEvent}
    (hinit : b₀.init capacity = some (b, events)) : Inv capacity { buffer := b } := by
  unfold init at hinit
  rw [Option.bind_eq_bind, Option.bind_eq_some_iff] at hinit
  obtain ⟨⟨b₁, events₁⟩, -, hb⟩ := hinit
  simp only [Option.pure_def, Option.some.injEq, Prod.mk.injEq, Nat.mod_eq_of_lt hc.lt_two_pow] at hb
  obtain ⟨rfl, -⟩ := hb
  constructor
  case stored => exact ⟨_, rfl, by simp⟩
  case ordered => exact List.Pairwise.nil
  all_goals simp

/-- **The regions of a buffer are separate, in every run.**  The buffer is initialised, whatever it
was before, with a positive multiple of 64 up to `2 ^ 28` bytes, and the allocator answers a multiple
of 4 that is at least as large and below `capacityLimit`. -/
theorem run_separate (size capacity : ℕ) (hsize : 0 < size ∧ 64 ∣ size ∧ size ≤ 2 ^ 28)
    (hcapacity : size ≤ capacity ∧ 4 ∣ capacity) (hlimit : capacity < capacityLimit)
    {b₀ b : CommandsBuffer} {events : List CommandEvent} (hinit : b₀.init capacity = some (b, events))
    (acts : List RegionAction) :
    ∃ r, acts.foldlM step { buffer := b } = some r ∧ r.Separate capacity := by
  have hc : Capacity capacity := ⟨by omega, hcapacity.2, hlimit⟩
  have hstep (r : RegionRun) (act : RegionAction) (h : r.Inv capacity) (_ : True) :
      ∃ r', r.step act = some r' ∧ r'.Inv capacity := h.step hc act
  obtain ⟨r, hrun, hinv⟩ := Lib.run_total hstep acts (Inv.nil hc hinit) fun _ _ => trivial
  exact ⟨r, hrun, hinv.separate hc⟩

/-- Two regions of 24 bytes, the second aligned to 16, fill a buffer of 64 bytes. -/
theorem run_separate_two :
    ∃ b events, ({} : CommandsBuffer).init 64 = some (b, events) ∧
      ∃ r, [RegionAction.allocate ⟨24, 8, by decide, by decide, 3, by decide, rfl⟩,
        .store 0 fun _ => none, .allocate ⟨24, 16, by decide, by decide, 4, by decide, rfl⟩,
        .allocate ⟨1, 1, by decide, by decide, 0, by decide, rfl⟩].foldlM step { buffer := b } = some r ∧
        r.Separate 64 :=
  ⟨_, _, rfl, run_separate 64 64 (by decide) (by decide) (by decide)
    (rfl : ({} : CommandsBuffer).init 64 = some (_, _)) _⟩

/-! ### The capacity limit -/

/-- A buffer of the capacity limit with `n` commands and the free space at `free`. -/
structure Filled (n free : ℕ) (b : CommandsBuffer) : Prop where
  valid : ∃ data, b.commandsBufferData = some data
  total : b.totalBytes = capacityLimit
  count : b.countCommands = n
  free_eq : b.offsetOfFree = free

/-- `Allocate` compares the sum without its carry. -/
theorem Filled.allocate {n free o : ℕ} (h : Filled n free r.buffer) (hn : n ≤ 4095) (q : Request)
    (hlt : free < 4095 * 2 ^ 20) (hfree : free ≤ o) (hgap : o < free + q.alignement)
    (hdvd : q.alignement ∣ o) (hfits : (o + q.size) % 2 ^ 32 + 4 * (n + 1) ≤ capacityLimit) :
    ∃ b, r.step (.allocate q) = some ⟨b, r.regions ++ [⟨o, q⟩]⟩ ∧
      Filled (n + 1) ((o + q.size) % 2 ^ 32) b := by
  obtain ⟨data, hdata⟩ := h.valid
  obtain ⟨k, hk, halign⟩ := q.alignement_eq
  have hlimit : capacityLimit = 4095 * 2 ^ 20 + 12288 := rfl
  have hmeta : r.buffer.getMetadataOffset n = capacityLimit - 4 * (n + 1) := by
    rw [← h.total]
    exact getMetadataOffset_eq (by rw [h.total]; omega) (by rw [h.total]; decide)
  obtain ⟨offset, hoff, hle, hlt', hdvd', hleast⟩ := getOffsetOfNextCommand_spec hk (b := r.buffer)
    (by rw [h.total, h.free_eq]; omega) (by rw [h.free_eq]; omega)
  rw [h.free_eq] at hle hlt' hleast
  rw [← halign] at hoff hdvd' hleast hlt'
  obtain rfl : offset = o := by
    refine Nat.le_antisymm (hleast o hdvd hfree) ?_
    by_contra hcon
    have : q.alignement ≤ o - offset := Nat.le_of_dvd (by omega) (Nat.dvd_sub hdvd hdvd')
    omega
  have halloc := @allocate_eq r.buffer data q.size q.alignement offset hdata hoff
  rw [h.count, hmeta, if_pos (by omega)] at halloc
  refine ⟨_, by simp only [step, halloc, Option.bind_eq_bind, Option.bind_some, Option.pure_def]; rfl, ?_⟩
  exact ⟨⟨_, rfl⟩, h.total, rfl, rfl⟩

/-- The largest request. -/
def largest : Request := ⟨2 ^ 20, 4096, by decide, by decide, 12, by decide, rfl⟩

/-- The largest request that leaves the largest gap behind it. -/
def gapped : Request := ⟨2 ^ 20 - 4095, 1, by decide, by decide, 0, by decide, rfl⟩

/-- The largest requests follow each other without a gap. -/
theorem run_largest {b : CommandsBuffer} (h : Filled 0 0 b) (n : ℕ) (hn : n ≤ 4094) :
    ∃ r, (List.replicate n (RegionAction.allocate largest)).foldlM step { buffer := b } = some r ∧
      Filled n (n * 2 ^ 20) r.buffer := by
  induction n with
  | zero => exact ⟨_, rfl, by simpa using h⟩
  | succ n ih =>
    obtain ⟨r, hrun, hfilled⟩ := ih (by omega)
    have hsize : largest.size = 2 ^ 20 := rfl
    have halign : largest.alignement = 4096 := rfl
    have hlimit : capacityLimit = 4095 * 2 ^ 20 + 12288 := rfl
    have hmod : (n * 2 ^ 20 + largest.size) % 2 ^ 32 = (n + 1) * 2 ^ 20 := by
      rw [hsize]
      omega
    obtain ⟨b', hstep, hfilled'⟩ := hfilled.allocate (by omega) largest (by omega) le_rfl (by omega)
      (by rw [halign]; omega) (by rw [hmod]; omega)
    rw [hmod] at hfilled'
    refine ⟨⟨b', r.regions ++ [⟨n * 2 ^ 20, largest⟩]⟩, ?_, hfilled'⟩
    rw [List.replicate_succ', List.foldlM_append, hrun]
    simp only [Option.bind_eq_bind, Option.bind_some, List.foldlM_cons, List.foldlM_nil, hstep,
      Option.pure_def]

/-- **A larger capacity does not do.**  At the limit, 4095 regions leave a last one the offset
`2 ^ 32 - 2 ^ 20`; its end wraps around to zero, so it is returned although it ends behind the
buffer.  At `2 ^ 32` the buffer takes its capacity for zero and `Allocate` fails its assertion. -/
theorem allocate_wraps :
    (64 ≤ capacityLimit ∧ 4 ∣ capacityLimit ∧ ∃ b events,
      ({} : CommandsBuffer).init capacityLimit = some (b, events) ∧
      ∃ (acts : List RegionAction) (r : RegionRun), acts.foldlM step { buffer := b } = some r ∧
        ∃ g ∈ r.regions, capacityLimit < g.finish) ∧
    ∃ b events, ({} : CommandsBuffer).init (2 ^ 32) = some (b, events) ∧ b.allocate 1 1 = none := by
  refine ⟨⟨by decide, by decide, _, _, rfl, ?_⟩, _, _, rfl, rfl⟩
  have hlimit : capacityLimit = 4095 * 2 ^ 20 + 12288 := rfl
  have hgapped : gapped.size = 2 ^ 20 - 4095 ∧ gapped.alignement = 1 := ⟨rfl, rfl⟩
  have hlargest : largest.size = 2 ^ 20 ∧ largest.alignement = 4096 := ⟨rfl, rfl⟩
  have hempty : Filled 0 0
      { commandsBufferData := some fun _ => none, totalBytes := capacityLimit % 2 ^ 32 } :=
    ⟨⟨_, rfl⟩, by decide, rfl, rfl⟩
  obtain ⟨r, hrun, hfilled⟩ := run_largest hempty 4094 le_rfl
  obtain ⟨b₁, hstep₁, hfilled₁⟩ := hfilled.allocate (by omega) gapped (by omega) le_rfl (by omega)
    (by rw [hgapped.2]; exact one_dvd _) (by omega)
  obtain ⟨b₂, hstep₂, -⟩ := @Filled.allocate ⟨b₁, r.regions ++ [⟨4094 * 2 ^ 20, gapped⟩]⟩ _ _
    (4095 * 2 ^ 20) hfilled₁ le_rfl largest (by omega) (by omega) (by omega)
    (by rw [hlargest.2]; omega) (by omega)
  refine ⟨List.replicate 4094 (.allocate largest) ++ [.allocate gapped, .allocate largest],
    ⟨b₂, r.regions ++ [⟨4094 * 2 ^ 20, gapped⟩] ++ [⟨4095 * 2 ^ 20, largest⟩]⟩, ?_,
    ⟨4095 * 2 ^ 20, largest⟩, by simp, by decide⟩
  rw [List.foldlM_append, hrun]
  simp only [Option.bind_eq_bind, Option.bind_some, List.foldlM_cons, List.foldlM_nil, hstep₁, hstep₂,
    Option.pure_def]

end RegionRun
end CommandsBuffer
end ICon7
