/-
# Batching of commands

The buffers that a `CommandsBufferHandler` has enqueued are objects: whoever takes them from the
queue executes, moves, resets and destroys them.  A buffer's commands are in one object until they
are dealt with, all of them, so every batch has been dealt with or is held by one object
(`BufferObjects.Inv`), whatever is done to the objects.

Together with the handler's runs this is `batching_exact`: no command is lost, none is executed or
destroyed twice.
-/

import ICon7.Lib.Holdings
import ICon7.Queue.Handler

namespace ICon7

/-! ### The queued buffers -/

/-- What can be done to buffer objects: `moveAssign i j` is `object i = std::move(object j)`. -/
inductive BufferOperation where
  | executeAll (i : ℕ)
  | moveConstruct (i : ℕ)
  | moveAssign (i j : ℕ)
  | reset (i : ℕ)
  | destroy (i : ℕ)
deriving DecidableEq

/-- Buffer objects, `none` for one that has been destroyed, and what has been done to commands. -/
structure BufferObjects where
  objects : List (Option CommandsBuffer)
  events : List CommandEvent := []

namespace BufferObjects

/-- The object, as long as it exists. -/
def get (s : BufferObjects) (i : ℕ) : Option CommandsBuffer := s.objects[i]?.join

/-- One operation; on an object that does not exist there is none. -/
def apply (s : BufferObjects) : BufferOperation → Option BufferObjects
  | .executeAll i =>
    match s.get i with
    | some b => do
      let (b, events) ← b.executeAll
      return ⟨s.objects.set i (some b), s.events ++ events⟩
    | none => some s
  | .moveConstruct i =>
    match s.get i with
    | some b => some ⟨s.objects.set i (some b.moveConstruct.2) ++ [some b.moveConstruct.1], s.events⟩
    | none => some s
  | .moveAssign i j =>
    match s.get i, s.get j with
    | some b, some o =>
      -- `this == &o` only logs
      if i = j then some s
      else do
        let (b, o, events) ← b.moveAssign o
        return ⟨(s.objects.set j (some o)).set i (some b), s.events ++ events⟩
    | _, _ => some s
  | .reset i =>
    match s.get i with
    | some b => do
      let (b, events) ← b.reset
      return ⟨s.objects.set i (some b), s.events ++ events⟩
    | none => some s
  | .destroy i =>
    match s.get i with
    | some b => do
      let (_, events) ← b.reset
      return ⟨s.objects.set i none, s.events ++ events⟩
    | none => some s

/-- Operations one after the other. -/
def run (s : BufferObjects) (operations : List BufferOperation) : Option BufferObjects :=
  operations.foldlM apply s

/-- A whole batch is dealt with: executed and destroyed, or only destroyed, in order. -/
def batchEvents : Bool × List BufferedCommand → List CommandEvent
  | (true, cs) => cs.flatMap fun c => [.executed c, .destructed c]
  | (false, cs) => cs.flatMap fun c => [.destructed c]

/-- The batch in an object that has not been dealt with. -/
inductive Held : Option CommandsBuffer → Multiset (List BufferedCommand) → Prop
  | destroyed : Held none 0
  | null {b : CommandsBuffer} (hdata : b.commandsBufferData = none) (hcount : b.countCommands = 0) :
      Held (some b) 0
  | full {b : CommandsBuffer} {cs : List BufferedCommand} (hholds : b.Holds cs)
      (hexec : b.commandsExecuted = 0) : Held (some b) {cs}
  | done {b : CommandsBuffer} {cs : List BufferedCommand} (hholds : b.Holds cs)
      (hexec : b.commandsExecuted = cs.length) : Held (some b) 0

/-- An operation on an object deals with the batches that it held and leaves none in what is kept of
it. -/
def Deals (op : Option (CommandsBuffer × List CommandEvent)) (keep : CommandsBuffer → Option CommandsBuffer)
    (p : Multiset (List BufferedCommand)) : Prop :=
  ∃ (b : CommandsBuffer) (dealt : List (Bool × List BufferedCommand)),
    op = some (b, dealt.flatMap batchEvents) ∧ Held (keep b) 0 ∧ p = ↑(dealt.map Prod.snd)

variable {b : CommandsBuffer} {p : Multiset (List BufferedCommand)}

/-- `ExecuteAll` deals with the batch that an object holds. -/
theorem Held.executeAll (h : Held (some b) p) : Deals b.executeAll some p := by
  cases h with
  | null hdata hcount =>
    refine ⟨b, [], ?_, .null hdata hcount, rfl⟩
    rw [CommandsBuffer.executeAll, hcount, Nat.zero_sub]
    rfl
  | full hholds hexec =>
    refine ⟨_, [(true, _)], ?_, .done hholds.executed rfl, rfl⟩
    rw [hholds.executeAll, hexec]
    simp [batchEvents]
  | done hholds hexec =>
    refine ⟨_, [], ?_, .done hholds.executed rfl, rfl⟩
    rw [hholds.executeAll, hexec, List.drop_length]
    rfl

/-- `Reset` deals with the batch that an object holds. -/
theorem Held.reset (h : Held (some b) p) : Deals b.reset some p := by
  cases h with
  | null hdata hcount => exact ⟨b, [], CommandsBuffer.reset_of_null hdata, .null hdata hcount, rfl⟩
  | full hholds hexec =>
    refine ⟨{ offsetOfFree := b.offsetOfFree }, [(false, _)], ?_, .null rfl rfl, rfl⟩
    rw [hholds.reset, hexec]
    simp [batchEvents]
  | done hholds hexec =>
    refine ⟨{ offsetOfFree := b.offsetOfFree }, [], ?_, .null rfl rfl, rfl⟩
    rw [hholds.reset, hexec, List.drop_length]
    rfl

/-- Every batch has been dealt with or is in an object, and only one of both. -/
def Inv (s : BufferObjects) (batches : List (List BufferedCommand)) : Prop :=
  ∃ (dealt : List (Bool × List BufferedCommand)) (held : Multiset (List BufferedCommand)),
    s.events = dealt.flatMap batchEvents ∧ Lib.Holdings Held s.objects held ∧
      ↑(dealt.map Prod.snd) + held = (batches : Multiset (List BufferedCommand))

variable {s : BufferObjects} {batches : List (List BufferedCommand)} {i j : ℕ}

theorem getElem?_of_get (h : s.get i = some b) : s.objects[i]? = some (some b) := by
  unfold get at h
  cases ho : s.objects[i]? with
  | none => simp [ho] at h
  | some o => simpa [ho] using h

/-- An operation that deals with what one object holds, the object being kept or not. -/
theorem Inv.deal (hI : s.Inv batches) (hget : s.get i = some b)
    {op : Option (CommandsBuffer × List CommandEvent)} (keep : CommandsBuffer → Option CommandsBuffer)
    (hop : ∀ p, Held (some b) p → Deals op keep p) :
    ∃ s', (do
      let (b, events) ← op
      return BufferObjects.mk (s.objects.set i (keep b)) (s.events ++ events)) = some s' ∧
      s'.Inv batches := by
  obtain ⟨dealt, held, hevents, hobjects, hsum⟩ := hI
  obtain ⟨p, rest, hheld, rfl, hset⟩ := hobjects.replace (getElem?_of_get hget)
  obtain ⟨b', dealt', hrun, hheld', rfl⟩ := hop p hheld
  refine ⟨_, by rw [hrun]; rfl, dealt ++ dealt', 0 + rest, ?_, hset _ _ hheld', ?_⟩
  · rw [hevents, List.flatMap_append]
  · rw [← hsum, List.map_append, ← Multiset.coe_add]
    abel

/-- What the move constructor takes out of an object is in the new one. -/
theorem Inv.moveConstruct (hI : s.Inv batches) (hget : s.get i = some b) :
    Inv ⟨s.objects.set i (some b.moveConstruct.2) ++ [some b.moveConstruct.1], s.events⟩ batches := by
  obtain ⟨dealt, held, hevents, hobjects, hsum⟩ := hI
  obtain ⟨p, rest, hheld, rfl, hset⟩ := hobjects.replace (getElem?_of_get hget)
  refine ⟨dealt, 0 + rest + p, hevents, (hset _ _ (.null rfl rfl)).append_singleton hheld, ?_⟩
  rw [← hsum]
  abel

/-- The move assignment deals with what the target holds and gives it what the source holds. -/
theorem Inv.moveAssign (hI : s.Inv batches) {o : CommandsBuffer} (hij : i ≠ j) (hi : s.get i = some b)
    (hj : s.get j = some o) :
    ∃ s', (do
      let (b, o, events) ← b.moveAssign o
      return BufferObjects.mk ((s.objects.set j (some o)).set i (some b)) (s.events ++ events)) = some s' ∧
      s'.Inv batches := by
  obtain ⟨dealt, held, hevents, hobjects, hsum⟩ := hI
  obtain ⟨p, rest, hsource, rfl, hset⟩ := hobjects.replace (getElem?_of_get hj)
  have hi' : (s.objects.set j (some o.moveConstruct.2))[i]? = some (some b) := by
    rw [List.getElem?_set_ne hij.symm, getElem?_of_get hi]
  obtain ⟨q, rest', htarget, hrest, hset'⟩ := (hset _ _ (.null rfl rfl)).replace hi'
  obtain ⟨b', dealt', hreset, -, rfl⟩ := htarget.reset
  refine ⟨⟨(s.objects.set j (some o.moveConstruct.2)).set i (some o.moveConstruct.1),
    s.events ++ dealt'.flatMap batchEvents⟩, ?_, dealt ++ dealt', p + rest', ?_, hset' _ _ hsource, ?_⟩
  · rw [CommandsBuffer.moveAssign, hreset]
    rfl
  · rw [hevents, List.flatMap_append]
  · rw [← hsum, List.map_append, ← Multiset.coe_add, ← zero_add rest, hrest]
    abel

/-- **What one operation keeps.** -/
theorem Inv.apply (hI : s.Inv batches) (a : BufferOperation) : ∃ s', s.apply a = some s' ∧ s'.Inv batches := by
  cases a with
  | executeAll i =>
    cases hget : s.get i with
    | none => exact ⟨s, by simp only [BufferObjects.apply, hget], hI⟩
    | some b => simpa only [BufferObjects.apply, hget] using hI.deal hget some fun p hp => hp.executeAll
  | moveConstruct i =>
    cases hget : s.get i with
    | none => exact ⟨s, by simp only [BufferObjects.apply, hget], hI⟩
    | some b => exact ⟨_, by simp only [BufferObjects.apply, hget], hI.moveConstruct hget⟩
  | moveAssign i j =>
    cases hi : s.get i with
    | none => exact ⟨s, by simp only [BufferObjects.apply, hi], hI⟩
    | some b =>
      cases hj : s.get j with
      | none => exact ⟨s, by simp only [BufferObjects.apply, hi, hj], hI⟩
      | some o =>
        by_cases hij : i = j
        · exact ⟨s, by simp only [BufferObjects.apply, hi, hj, if_pos hij], hI⟩
        · simpa only [BufferObjects.apply, hi, hj, if_neg hij] using hI.moveAssign hij hi hj
  | reset i =>
    cases hget : s.get i with
    | none => exact ⟨s, by simp only [BufferObjects.apply, hget], hI⟩
    | some b => simpa only [BufferObjects.apply, hget] using hI.deal hget some fun p hp => hp.reset
  | destroy i =>
    cases hget : s.get i with
    | none => exact ⟨s, by simp only [BufferObjects.apply, hget], hI⟩
    | some b =>
      have hop : ∀ p, Held (some b) p → Deals b.reset (fun _ => none) p := by
        intro p hp
        obtain ⟨b', dealt, hreset, -, hdealt⟩ := hp.reset
        exact ⟨b', dealt, hreset, .destroyed, hdealt⟩
      simpa only [BufferObjects.apply, hget] using hI.deal hget (fun _ => none) hop

/-- **What a run of operations keeps**; none of them fails. -/
theorem Inv.run (operations : List BufferOperation) (hI : s.Inv batches) :
    ∃ s', s.run operations = some s' ∧ s'.Inv batches :=
  Lib.run_total (fun _ a h _ => h.apply a) operations hI fun _ _ => trivial

/-- Queued buffers are objects that hold their batches. -/
theorem inv_of_queued {queued : List CommandsBuffer}
    (h : List.Forall₂ CommandsBufferHandler.Queued queued batches) : Inv ⟨queued.map some, []⟩ batches := by
  refine ⟨[], batches, rfl, ?_, by simp⟩
  induction h with
  | nil => exact Lib.Holdings.nil
  | cons hhead _ ih => exact Lib.Holdings.cons_iff.2 ⟨_, _, .full hhead.1 hhead.2.1, ih, rfl⟩

end BufferObjects

/-! ### Commands and what happens to them -/

/-- The commands that were executed, in order. -/
def executed (events : List CommandEvent) : List BufferedCommand :=
  events.filterMap fun
    | .executed c => some c
    | .destructed _ => none

/-- The commands whose destructor was called, in order. -/
def destructed (events : List CommandEvent) : List BufferedCommand :=
  events.filterMap fun
    | .executed _ => none
    | .destructed c => some c

theorem executed_flatMap_batchEvents (dealt : List (Bool × List BufferedCommand)) :
    executed (dealt.flatMap BufferObjects.batchEvents) = ((dealt.filter Prod.fst).map Prod.snd).flatten := by
  have hbatch : ∀ d : Bool × List BufferedCommand,
      executed (BufferObjects.batchEvents d) = if d.1 then d.2 else [] := by
    rintro ⟨done, cs⟩
    cases done <;> simp [executed, BufferObjects.batchEvents, List.filterMap_flatMap]
  induction dealt with
  | nil => rfl
  | cons d dealt ih =>
    rw [List.flatMap_cons, executed, List.filterMap_append, ← executed, ← executed, ih, hbatch]
    cases hd : d.1 <;> simp [hd]

theorem destructed_flatMap_batchEvents (dealt : List (Bool × List BufferedCommand)) :
    destructed (dealt.flatMap BufferObjects.batchEvents) = (dealt.map Prod.snd).flatten := by
  have hbatch : ∀ d : Bool × List BufferedCommand, destructed (BufferObjects.batchEvents d) = d.2 := by
    rintro ⟨done, cs⟩
    cases done <;> simp [destructed, BufferObjects.batchEvents, List.filterMap_flatMap]
  induction dealt with
  | nil => rfl
  | cons d dealt ih =>
    rw [List.flatMap_cons, destructed, List.filterMap_append, ← destructed, ← destructed, ih, hbatch]
    rfl

/-- The commands of a run have different numbers. -/
theorem nodup_enqueued (calls : List HandlerCall) : (enqueued calls).Nodup := by
  apply List.Nodup.of_map BufferedCommand.id
  rw [enqueued, List.map_map]
  exact (List.zipIdx_map_snd 0 (calls.flatMap HandlerCall.types)) ▸ List.nodup_range'

/-- What has happened to the commands of the batches: each batch at most once and all of it, in
order, and nothing is left out when no buffer is valid any more. -/
structure BufferObjects.OnceInOrder (s : BufferObjects) (batches : List (List BufferedCommand)) : Prop where
  /-- No command is executed twice. -/
  executed_nodup : (executed s.events).Nodup
  /-- The commands of a buffer are executed together, in the order in which they were enqueued. -/
  executed_eq : ∃ order : List (List BufferedCommand), order.Subperm batches ∧ executed s.events = order.flatten
  /-- No command is destroyed twice, or executed and not destroyed. -/
  destructed_nodup : (destructed s.events).Nodup
  executed_sublist : (executed s.events).Sublist (destructed s.events)
  /-- Every command is destroyed by the time no buffer is left. -/
  destructed_perm : (∀ o ∈ s.objects, ∀ b ∈ o, b.isValid = false) →
    (destructed s.events).Perm batches.flatten

theorem BufferObjects.Inv.onceInOrder {s : BufferObjects} {batches : List (List BufferedCommand)}
    (hI : s.Inv batches) (hnodup : batches.flatten.Nodup) : s.OnceInOrder batches := by
  obtain ⟨dealt, held, hevents, hobjects, hsum⟩ := hI
  have hsub : (dealt.map Prod.snd).Subperm batches := by
    rw [← Multiset.coe_le, ← hsum]
    exact Multiset.le_add_right _ _
  have hexec : executed s.events = ((dealt.filter Prod.fst).map Prod.snd).flatten := by
    rw [hevents, executed_flatMap_batchEvents]
  have hdestr : destructed s.events = (dealt.map Prod.snd).flatten := by
    rw [hevents, destructed_flatMap_batchEvents]
  have horder : ((dealt.filter Prod.fst).map Prod.snd).Sublist (dealt.map Prod.snd) :=
    List.filter_sublist.map _
  have hsublist : (executed s.events).Sublist (destructed s.events) := by
    rw [hexec, hdestr]
    exact horder.flatten
  have hdestr_nodup : (destructed s.events).Nodup := by
    obtain ⟨l, hperm, hl⟩ := hsub
    rw [hdestr, ← hperm.flatten.nodup_iff]
    exact hnodup.sublist hl.flatten
  refine ⟨hdestr_nodup.sublist hsublist, ⟨_, horder.subperm.trans hsub, hexec⟩, hdestr_nodup, hsublist, ?_⟩
  intro hnone
  have hheld : held = 0 := by
    refine hobjects.eq_zero fun o ho p hp => ?_
    cases hp with
    | full hholds hexec =>
      have := hnone _ ho _ rfl
      rw [hholds.isValid] at this
      cases this
    | _ => rfl
  rw [hheld, add_zero, Multiset.coe_eq_coe] at hsum
  rw [hdestr]
  exact hsum.flatten

/-- **Batching loses and repeats nothing.**  `EnqueueCommand` never returns a null pointer, the
queued buffers and the current one contain what was enqueued, in order, and so do the queued ones
once the handler is destroyed; and whatever is then done to the queued buffers, each command is
executed at most once, in order, and destroyed once. -/
theorem batching_exact (now : ℤ) (calls : List HandlerCall) (later : List BufferOperation) :
    ∃ r h batches s, HandlerRun.run now calls = some r ∧ none ∉ r.returned ∧
      r.returned.length = (enqueued calls).length ∧
      r.handler.contents = some (enqueued calls) ∧
      r.handler.destroy = some h ∧ h.currentCommandsBuffer.isValid = false ∧
      h.queued.mapM CommandsBuffer.commands = some batches ∧ batches.flatten = enqueued calls ∧
      BufferObjects.run ⟨h.queued.map some, h.events⟩ later = some s ∧ s.OnceInOrder batches := by
  obtain ⟨r, hrun, ⟨⟨batches₀, cs, hH, hflat₀⟩, hlength, hreturned⟩⟩ := HandlerRun.run_inv now calls
  obtain ⟨h, batches, hdestroy, hqueued, -, hvalid, hevents, hflat⟩ := hH.destroy
  obtain ⟨s, hlater, hI⟩ := (BufferObjects.inv_of_queued hqueued).run later
  have hall : batches.flatten = enqueued calls := hflat.trans hflat₀
  refine ⟨r, h, batches, s, hrun, hreturned, by simp [hlength, enqueued], ?_, hdestroy, hvalid,
    CommandsBufferHandler.mapM_commands_of_queued hqueued, hall, by rw [hevents]; exact hlater, ?_⟩
  · rw [hH.contents, hflat₀]
    rfl
  · exact hI.onceInOrder (hall ▸ nodup_enqueued calls)

end ICon7
