/-
# Batched sends

`MultiBatchWriter` of `src/MultiBatchWriter.cpp`: one `SendBatch` for each loop,
in the vector of a `MapLoop` at the index of the loop.  A batch is handed to its
loop as a `CommandBatchSend` by `Flush`, which the destructors call too.

`SendBatch` has a destructor and so no move constructor: when the vector grows
beyond its capacity, it copies every batch into its new storage and then destroys
the original, whose destructor hands its frames to the loop.  The copy holds the
same frames and hands them over once more.  What a loop is given is what was sent
to it exactly when no growth of the vector meets frames in its batch
(`run_delivers_iff`).

A loop is the number that `loopIndex` gives it, which is never given to another
loop.  How far the vector grows is the library's choice, the parameter `growth` of
its size and the size asked for.
-/

import ICon7.Lib.Run
import ICon7.Peer.Manager

namespace ICon7

open Lib

/-- `SendBatch::SendData`. -/
structure SendData where
  frame : List UInt8
  peerId : PeerId
deriving DecidableEq, Repr

structure SendBatch where
  loop : Option ℕ := none
  data : List SendData := []
deriving DecidableEq, Repr

/-- The command that sends a batch, with the loop it is enqueued to. -/
structure CommandBatchSend where
  loop : ℕ
  data : List SendData
deriving DecidableEq, Repr

/-- `SendBatch::Push`. -/
def SendBatch.push (b : SendBatch) (handle : PeerHandle) (frame : List UInt8) :
    Option SendBatch := do
  let loop := if b.loop.isNone then handle.loop else b.loop
  guard (loop = handle.loop)
  return { loop, data := b.data ++ [⟨frame, handle.peerId⟩] }

/-- `SendBatch::Flush`, with the command it enqueues; also what `~SendBatch` does. -/
def SendBatch.flush (b : SendBatch) : SendBatch × List CommandBatchSend :=
  match b.loop with
  | none => ({ b with data := [] }, [])
  | some loop => if b.data.isEmpty then (b, []) else ({ b with data := [] }, [⟨loop, b.data⟩])

/-- `MapLoop<SendBatch>`: its vector, with the capacity. -/
structure MapLoop where
  data : List SendBatch := []
  capacity : ℕ := 0
deriving DecidableEq, Repr

/-- `data.resize(n)` to a larger size, with what the destructors of the originals enqueue. -/
def MapLoop.resize (growth : ℕ → ℕ → ℕ) (m : MapLoop) (n : ℕ) : MapLoop × List CommandBatchSend :=
  let data := m.data ++ List.replicate (n - m.data.length) ({} : SendBatch)
  if n ≤ m.capacity then ({ m with data }, [])
  else ({ data, capacity := growth m.data.length n }, m.data.flatMap fun b => b.flush.2)

/-- `MapLoop::Access`, without the reference it returns. -/
def MapLoop.access (growth : ℕ → ℕ → ℕ) (m : MapLoop) (loop : ℕ) :
    MapLoop × List CommandBatchSend :=
  if m.data.length ≤ loop then
    let (m, commands) := m.resize growth (loop + 1)
    ({ m with data := m.data.modify loop fun b => { b with loop := some loop } }, commands)
  else (m, [])

/-- A writer, and the commands enqueued so far. -/
structure MultiBatchWriter where
  map : MapLoop := {}
  enqueued : List CommandBatchSend := []
deriving DecidableEq, Repr

namespace MultiBatchWriter

/-- `Send`. -/
def send (growth : ℕ → ℕ → ℕ) (w : MultiBatchWriter) (handle : PeerHandle) (frame : List UInt8) :
    Option MultiBatchWriter := do
  let loop ← handle.loop
  let (map, commands) := w.map.access growth loop
  let batch ← map.data[loop]?
  let batch ← batch.push handle frame
  return { map := { map with data := map.data.set loop batch },
           enqueued := w.enqueued ++ commands }

/-- `Flush`. -/
def flush (w : MultiBatchWriter) : MultiBatchWriter where
  map := { w.map with data := w.map.data.map fun sb => if sb.loop.isNone then sb else sb.flush.1 }
  enqueued := w.enqueued ++
    w.map.data.flatMap fun sb => if sb.loop.isNone then [] else sb.flush.2

/-- `~MultiBatchWriter`, with the destructors of the batches: all commands ever enqueued. -/
def destroy (w : MultiBatchWriter) : List CommandBatchSend :=
  w.flush.enqueued ++ w.flush.map.data.flatMap fun sb => sb.flush.2

inductive Op where
  | send (handle : PeerHandle) (frame : List UInt8)
  | flush
deriving DecidableEq, Repr

def step (growth : ℕ → ℕ → ℕ) (w : MultiBatchWriter) : Op → Option MultiBatchWriter
  | .send handle frame => w.send growth handle frame
  | .flush => some w.flush

def run (growth : ℕ → ℕ → ℕ) (w : MultiBatchWriter) (ops : List Op) : Option MultiBatchWriter :=
  ops.foldlM (step growth) w

/-- The frames that a list of commands hands to a loop, in order. -/
def delivered (loop : ℕ) (commands : List CommandBatchSend) : List SendData :=
  (commands.filter fun c => c.loop = loop).flatMap fun c => c.data

/-- The frames that an operation sends to handles of a loop. -/
def Op.sentTo (loop : ℕ) : Op → List SendData
  | .send handle frame => if handle.loop = some loop then [⟨frame, handle.peerId⟩] else []
  | .flush => []

/-- The frames sent to handles of a loop, in order. -/
def sentTo (loop : ℕ) (ops : List Op) : List SendData := ops.flatMap (Op.sentTo loop)

/-- A handle of a peer has a loop, as `Access` asserts. -/
def Op.Ok : Op → Prop
  | .send handle _ => handle.loop ≠ none
  | .flush => True

/-- The frames waiting in the batch of a loop. -/
def pending (w : MultiBatchWriter) (loop : ℕ) : List SendData :=
  ((w.map.data[loop]?).map SendBatch.data).getD []

/-- **The invariant.**  The batch in slot `i` belongs to loop `i` or is unused and empty. -/
structure WF (w : MultiBatchWriter) : Prop where
  batch : ∀ (i : ℕ) (b : SendBatch), w.map.data[i]? = some b →
    b.loop = some i ∨ (b.loop = none ∧ b.data = [])
  size_le : w.map.data.length ≤ w.map.capacity

variable {growth : ℕ → ℕ → ℕ} {w w' : MultiBatchWriter} {loop : ℕ}

theorem wf_empty : WF {} := ⟨by simp, le_rfl⟩

theorem delivered_append (c c' : List CommandBatchSend) :
    delivered loop (c ++ c') = delivered loop c ++ delivered loop c' := by
  rw [delivered, List.filter_append, List.flatMap_append]
  rfl

/-- A batch of the loop `i` hands its frames to that loop. -/
theorem delivered_flush {b : SendBatch} {i : ℕ}
    (hb : b.loop = some i ∨ (b.loop = none ∧ b.data = [])) :
    delivered loop b.flush.2 = if i = loop then b.data else [] := by
  rcases hb with hb | ⟨hb, hd⟩
  · rw [SendBatch.flush, hb]
    cases hd : b.data with
    | nil => simp [delivered]
    | cons d ds =>
      rcases eq_or_ne i loop with rfl | hne
      · simp [delivered]
      · simp [delivered, hne]
  · simp [SendBatch.flush, hb, hd, delivered]

/-- **The batches of consecutive loops**, flushed one after the other, hand each loop the
frames of its batch. -/
theorem delivered_flatMap_flush (bs : List SendBatch) (k loop : ℕ)
    (hbs : ∀ (i : ℕ) (b : SendBatch), bs[i]? = some b →
      b.loop = some (k + i) ∨ (b.loop = none ∧ b.data = [])) :
    delivered (k + loop) (bs.flatMap fun b => b.flush.2) = ((bs[loop]?).map SendBatch.data).getD [] ∧
      ∀ l < k, delivered l (bs.flatMap fun b => b.flush.2) = [] := by
  induction bs generalizing k loop with
  | nil => exact ⟨rfl, fun _ _ => rfl⟩
  | cons b bs ih =>
    have hb := hbs 0 b rfl
    have ih := fun loop => ih (k + 1) loop fun i b' hi => by
      rw [Nat.add_assoc, Nat.add_comm 1]
      exact hbs (i + 1) b' hi
    simp only [List.flatMap_cons, delivered_append, delivered_flush hb]
    refine ⟨?_, fun l hl => ?_⟩
    · cases loop with
      | zero =>
        rw [if_pos rfl, (ih 0).2 (k + 0) (by omega)]
        simp
      | succ loop =>
        rw [if_neg (by omega), List.nil_append, ← Nat.add_assoc, Nat.add_right_comm, (ih loop).1]
        rfl
    · rw [if_neg (by omega), (ih 0).2 l (by omega)]
      rfl

/-- All batches flushed. -/
theorem WF.delivered_batches (hw : w.WF) :
    delivered loop (w.map.data.flatMap fun b => b.flush.2) = w.pending loop := by
  have h := (delivered_flatMap_flush w.map.data 0 loop fun i b hi => by
    rw [Nat.zero_add]
    exact hw.batch i b hi).1
  rwa [Nat.zero_add] at h

/-- What `resize` puts into a slot: what was there, or an unused batch. -/
theorem getElem?_resize (growth : ℕ → ℕ → ℕ) (m : MapLoop) {n : ℕ} (hn : m.data.length ≤ n) (i : ℕ) :
    (m.resize growth n).1.data[i]? = if i < m.data.length then m.data[i]? else
      if i < n then some {} else none := by
  have hdata : (m.resize growth n).1.data =
      m.data ++ List.replicate (n - m.data.length) ({} : SendBatch) := by
    unfold MapLoop.resize
    split_ifs <;> rfl
  rw [hdata, List.getElem?_append]
  split_ifs with hi hin
  · rfl
  · rw [List.getElem?_replicate, if_pos (by omega)]
  · rw [List.getElem?_replicate, if_neg (by omega)]

/-- **`Access`** makes a batch for the loop if there is none.  It changes no frame of a batch,
but when it goes beyond the capacity every loop is handed the frames of its batch. -/
theorem access_spec (hgrowth : ∀ size n, n ≤ growth size n) (hw : w.WF) (l : ℕ) :
    ∃ m commands b, w.map.access growth l = (m, commands) ∧ m.data[l]? = some b ∧
      (b.loop = some l ∨ (b.loop = none ∧ b.data = [])) ∧ b.data = w.pending l ∧
      m.data.length ≤ m.capacity ∧
      (∀ i, i ≠ l → m.data[i]? = w.map.data[i]? ∨
        (w.map.data[i]? = none ∧ ∀ b', m.data[i]? = some b' → b' = {})) ∧
      ∀ loop, delivered loop commands = if w.map.capacity ≤ l then w.pending loop else [] := by
  rcases le_or_gt w.map.data.length l with hlt | hlt
  · -- the vector grows, and the new batch is an unused one
    rw [MapLoop.access, if_pos hlt]
    have hslot := getElem?_resize growth w.map (n := l + 1) (by omega)
    rcases hres : w.map.resize growth (l + 1) with ⟨m, commands⟩
    rw [hres] at hslot
    simp only at hslot ⊢
    have hpending : w.pending l = [] := by
      rw [pending, List.getElem?_eq_none hlt]
      rfl
    have hcap : m.data.length ≤ m.capacity ∧
        ∀ loop, delivered loop commands = if w.map.capacity ≤ l then w.pending loop else [] := by
      have hlen : (w.map.data ++ List.replicate (l + 1 - w.map.data.length)
          ({} : SendBatch)).length = l + 1 := by
        rw [List.length_append, List.length_replicate]
        omega
      unfold MapLoop.resize at hres
      split_ifs at hres with hle
      · obtain ⟨rfl, rfl⟩ := Prod.mk.inj hres
        refine ⟨hlen.trans_le hle, fun loop => ?_⟩
        rw [if_neg (by omega)]
        rfl
      · obtain ⟨rfl, rfl⟩ := Prod.mk.inj hres
        refine ⟨hlen.trans_le (hgrowth _ _), fun loop => ?_⟩
        rw [if_pos (by omega), hw.delivered_batches]
    refine ⟨_, commands, { loop := some l }, rfl, ?_, .inl rfl, hpending.symm, ?_, fun i hi => ?_,
      hcap.2⟩
    · rw [List.getElem?_modify_eq, hslot, if_neg (by omega), if_pos (by omega)]
      rfl
    · rw [List.length_modify]
      exact hcap.1
    · simp only [List.getElem?_modify_ne _ _ hi.symm, hslot]
      rcases lt_or_ge i w.map.data.length with hi' | hi'
      · exact .inl (if_pos hi')
      · refine .inr ⟨List.getElem?_eq_none hi', fun b' hb' => ?_⟩
        rw [if_neg (by omega)] at hb'
        split_ifs at hb'
        exact (Option.some.inj hb').symm
  · rw [MapLoop.access, if_neg (by omega)]
    have hb := List.getElem?_eq_getElem hlt
    have hcap := hw.size_le
    refine ⟨w.map, [], _, rfl, hb, hw.batch l _ hb, ?_, hw.size_le, fun _ _ => .inl rfl,
      fun loop => ?_⟩
    · rw [pending, hb]
      rfl
    · rw [if_neg (by omega)]
      rfl

/-- **`Send`** adds the frame to the batch of its loop; a growth of the vector hands over what
the batches hold, and they keep it. -/
theorem send_spec (hgrowth : ∀ size n, n ≤ growth size n) (hw : w.WF) {h : PeerHandle} {l : ℕ}
    (hl : h.loop = some l) (frame : List UInt8) :
    ∃ w', w.send growth h frame = some w' ∧ w'.WF ∧ ∀ loop,
      w'.pending loop = w.pending loop ++ (Op.send h frame).sentTo loop ∧
      delivered loop w'.enqueued = delivered loop w.enqueued ++
        if w.map.capacity ≤ l then w.pending loop else [] := by
  obtain ⟨m, commands, b, hacc, hb, hbw, hbd, hcap, hother, hdel⟩ := access_spec hgrowth hw l
  set b' : SendBatch := { loop := some l, data := b.data ++ [⟨frame, h.peerId⟩] } with hb'
  have hpush : b.push h frame = some b' := by
    rcases hbw with hbw | ⟨hbw, -⟩ <;> simp [SendBatch.push, hbw, hl, hb']
  have hlt : l < m.data.length := (List.getElem?_eq_some_iff.mp hb).1
  refine ⟨⟨{ m with data := m.data.set l b' }, w.enqueued ++ commands⟩, ?_,
    ⟨fun i c hi => ?_, ?_⟩, fun loop => ⟨?_, ?_⟩⟩
  · simp [send, hl, hacc, hb, hpush]
  · rcases eq_or_ne i l with rfl | hne
    · rw [List.getElem?_set_self hlt] at hi
      exact .inl (Option.some.inj hi ▸ rfl)
    · rw [List.getElem?_set_ne hne.symm] at hi
      rcases hother i hne with ho | ⟨-, ho⟩
      · exact hw.batch i c (ho ▸ hi)
      · rw [ho c hi]
        exact .inr ⟨rfl, rfl⟩
  · rw [List.length_set]
    exact hcap
  · rcases eq_or_ne loop l with rfl | hne
    · simp [pending, hlt, hb', hbd, Op.sentTo, hl]
    · have hsent : (Op.send h frame).sentTo loop = [] :=
        if_neg (by rw [hl]; exact fun heq => hne (Option.some.inj heq).symm)
      rw [hsent, List.append_nil, pending, List.getElem?_set_ne hne.symm]
      rcases hother loop hne with ho | ⟨hnone, ho⟩
      · rw [ho]
        rfl
      · rw [pending, hnone]
        cases hm : m.data[loop]? with
        | none => rfl
        | some c =>
          rw [ho c hm]
          rfl
  · rw [delivered_append, hdel]

/-- **`Flush`** hands every loop the frames of its batch. -/
theorem flush_spec (hw : w.WF) : w.flush.WF ∧ ∀ loop, w.flush.pending loop = [] ∧
    delivered loop w.flush.enqueued = delivered loop w.enqueued ++ w.pending loop := by
  have hslot : ∀ (i : ℕ) (c : SendBatch), w.flush.map.data[i]? = some c →
      (c.loop = some i ∨ c.loop = none) ∧ c.data = [] := by
    intro i c hc
    rw [flush, List.getElem?_map] at hc
    obtain ⟨b, hb, rfl⟩ := Option.map_eq_some_iff.mp hc
    rcases hw.batch i b hb with hl | ⟨hl, hd⟩
    · simp only [hl, Option.isNone_some, Bool.false_eq_true, if_false, SendBatch.flush]
      split_ifs with he
      · exact ⟨.inl hl, List.isEmpty_iff.mp he⟩
      · exact ⟨.inl rfl, rfl⟩
    · simp [hl, hd]
  have henq : w.flush.enqueued = w.enqueued ++ w.map.data.flatMap fun b => b.flush.2 := by
    have hfun : (fun b : SendBatch => if b.loop.isNone then [] else b.flush.2) =
        fun b => b.flush.2 := by
      funext b
      cases hl : b.loop with
      | none => simp [SendBatch.flush, hl]
      | some l => simp
    rw [flush, hfun]
  refine ⟨⟨fun i c hc => ?_, ?_⟩, fun loop => ⟨?_, ?_⟩⟩
  · obtain ⟨hl | hl, hd⟩ := hslot i c hc
    · exact .inl hl
    · exact .inr ⟨hl, hd⟩
  · rw [flush, List.length_map]
    exact hw.size_le
  · rw [pending]
    cases hc : w.flush.map.data[loop]? with
    | none => rfl
    | some c => exact (hslot loop c hc).2
  · rw [henq, delivered_append, hw.delivered_batches]

/-- The destructor hands over what the batches hold. -/
theorem delivered_destroy (hw : w.WF) :
    delivered loop w.destroy = delivered loop w.enqueued ++ w.pending loop := by
  obtain ⟨hw', hfl⟩ := flush_spec hw
  rw [destroy, delivered_append, (hfl loop).2, hw'.delivered_batches, (hfl loop).1, List.append_nil]

/-- The operation makes the vector grow beyond its capacity while the batch of the loop holds
frames. -/
def Copies (w : MultiBatchWriter) (loop : ℕ) : Op → Prop
  | .send handle _ => (∃ l, handle.loop = some l ∧ w.map.capacity ≤ l) ∧ w.pending loop ≠ []
  | .flush => False

/-- No operation of the sequence does. -/
def NeverCopies (growth : ℕ → ℕ → ℕ) (w : MultiBatchWriter) (loop : ℕ) (ops : List Op) : Prop :=
  ∀ pre op post u, ops = pre ++ op :: post → w.run growth pre = some u → ¬u.Copies loop op

theorem neverCopies_cons {op : Op} {ops : List Op} (hstep : w.step growth op = some w') :
    w.NeverCopies growth loop (op :: ops) ↔
      ¬w.Copies loop op ∧ w'.NeverCopies growth loop ops := by
  constructor
  · intro h
    refine ⟨h [] op ops w rfl rfl, fun pre o post u hops hrun => ?_⟩
    refine h (op :: pre) o post u (by rw [hops, List.cons_append]) ?_
    exact foldlM_cons_eq_some.mpr ⟨w', hstep, hrun⟩
  · rintro ⟨hop, h⟩ pre o post u hops hrun
    cases pre with
    | nil =>
      obtain ⟨rfl, rfl⟩ := List.cons.inj hops
      obtain rfl := Option.some.inj hrun
      exact hop
    | cons o' pre =>
      obtain ⟨rfl, rfl⟩ := List.cons.inj hops
      obtain ⟨w₁, hstep₁, hrun⟩ := foldlM_cons_eq_some.mp hrun
      obtain rfl := Option.some.inj (hstep.symm.trans hstep₁)
      exact h pre o post u rfl hrun

/-- What a loop has been handed and what waits in its batch. -/
def account (w : MultiBatchWriter) (loop : ℕ) : List SendData :=
  delivered loop w.enqueued ++ w.pending loop

/-- **One operation** adds what it sends to the account of a loop, and nothing else unless it
copies frames of that loop. -/
theorem step_account (hgrowth : ∀ size n, n ≤ growth size n) (hw : w.WF) {op : Op} (hok : op.Ok) :
    ∃ w', w.step growth op = some w' ∧ w'.WF ∧ ∀ loop,
      (¬w.Copies loop op ∧ w'.account loop = w.account loop ++ op.sentTo loop) ∨
      (w.Copies loop op ∧
        (w.account loop).length + (op.sentTo loop).length < (w'.account loop).length) := by
  cases op with
  | flush =>
    obtain ⟨hw', hfl⟩ := flush_spec hw
    refine ⟨w.flush, rfl, hw', fun loop => .inl ⟨id, ?_⟩⟩
    rw [account, (hfl loop).1, (hfl loop).2, account, Op.sentTo]
  | send h frame =>
    obtain ⟨l, hl⟩ := Option.ne_none_iff_exists'.mp hok
    obtain ⟨w', hsend, hw', hacc⟩ := send_spec hgrowth hw hl frame
    refine ⟨w', hsend, hw', fun loop => ?_⟩
    obtain ⟨hpend, hdel⟩ := hacc loop
    have hcopies : w.Copies loop (.send h frame) ↔ w.map.capacity ≤ l ∧ w.pending loop ≠ [] := by
      simp [Copies, hl]
    rw [hcopies, account, account, hpend, hdel]
    rcases le_or_gt w.map.capacity l with hcap | hcap
    · rw [if_pos hcap]
      cases hp : w.pending loop with
      | nil => exact .inl ⟨by simp, by simp⟩
      | cons d ds =>
        refine .inr ⟨⟨hcap, by simp⟩, ?_⟩
        simp only [List.length_append, List.length_cons]
        omega
    · rw [if_neg (by omega)]
      exact .inl ⟨by omega, by simp⟩

/-- **A run** adds what it sends to the account of a loop, and more if it copies. -/
theorem run_account (hgrowth : ∀ size n, n ≤ growth size n) (ops : List Op) (hw : w.WF)
    (hok : ∀ op ∈ ops, op.Ok) :
    ∃ w', w.run growth ops = some w' ∧ w'.WF ∧ ∀ loop,
      (w.NeverCopies growth loop ops ∧ w'.account loop = w.account loop ++ sentTo loop ops) ∨
      (¬w.NeverCopies growth loop ops ∧
        (w.account loop).length + (sentTo loop ops).length < (w'.account loop).length) := by
  induction ops generalizing w with
  | nil => exact ⟨w, rfl, hw, fun loop => .inl ⟨by simp [NeverCopies], (List.append_nil _).symm⟩⟩
  | cons op ops ih =>
    obtain ⟨w₁, hstep, hw₁, hacc₁⟩ := step_account hgrowth hw (hok op List.mem_cons_self)
    obtain ⟨w', hrun, hw', hacc⟩ := ih hw₁ fun o ho => hok o (List.mem_cons_of_mem _ ho)
    refine ⟨w', foldlM_cons_eq_some.mpr ⟨w₁, hstep, hrun⟩, hw', fun loop => ?_⟩
    have hsent : sentTo loop (op :: ops) = op.sentTo loop ++ sentTo loop ops := rfl
    rw [neverCopies_cons hstep, hsent, List.length_append]
    rcases hacc₁ loop with ⟨hno₁, h₁⟩ | ⟨hcop, h₁⟩
    · rcases hacc loop with ⟨hno, h⟩ | ⟨hcop, h⟩
      · exact .inl ⟨⟨hno₁, hno⟩, by rw [h, h₁, List.append_assoc]⟩
      · refine .inr ⟨fun hn => hcop hn.2, ?_⟩
        rw [h₁, List.length_append] at h
        omega
    · refine .inr ⟨fun hn => hn.1 hcop, ?_⟩
      have hle : (w₁.account loop).length + (sentTo loop ops).length ≤ (w'.account loop).length := by
        rcases hacc loop with ⟨-, h⟩ | ⟨-, h⟩
        · rw [h, List.length_append]
        · exact h.le
      omega

/-- **Batched sends are delivered exactly once, unless a growth copies them.**  For every
sequence of `Send` and `Flush` with the destructor at its end, and however far the library
makes the vector grow, the commands enqueued to a loop contain exactly the frames sent to
handles of that loop, each once and in order, if and only if no `Send` makes the vector grow
beyond its capacity while the batch of that loop holds frames. -/
theorem run_delivers_iff (growth : ℕ → ℕ → ℕ) (hgrowth : ∀ size n, n ≤ growth size n)
    (ops : List Op) (hok : ∀ op ∈ ops, op.Ok) :
    ∃ w, run growth {} ops = some w ∧ ∀ loop,
      (delivered loop w.destroy = sentTo loop ops ↔ NeverCopies growth {} loop ops) := by
  obtain ⟨w, hrun, hw, hacc⟩ := run_account hgrowth ops wf_empty hok
  refine ⟨w, hrun, fun loop => ?_⟩
  have hstart : account {} loop = [] := by simp [account, delivered, pending]
  have hend : delivered loop w.destroy = w.account loop := delivered_destroy hw
  rw [hend]
  rcases hacc loop with ⟨hno, h⟩ | ⟨hcop, h⟩
  · rw [h, hstart, List.nil_append]
    exact ⟨fun _ => hno, fun _ => rfl⟩
  · refine ⟨fun heq => ?_, fun hno => absurd hno hcop⟩
    rw [hstart, heq, List.length_nil] at h
    omega

/-- The growth of libstdc++: at least to the double of the size. -/
def doubling (size n : ℕ) : ℕ := size + max size (n - size)

theorem le_doubling (size n : ℕ) : n ≤ doubling size n := by
  unfold doubling
  omega

/-- A frame is flushed before the first use of another loop makes the vector grow. -/
theorem run_delivers_iff_flushed :
    ∃ w, run doubling {} [.send ⟨0, 1, some 1⟩ [7], .flush, .send ⟨0, 1, some 2⟩ [8]] = some w ∧
      delivered 1 w.destroy = [⟨[7], ⟨0, 1⟩⟩] ∧
      NeverCopies doubling {} 1 [.send ⟨0, 1, some 1⟩ [7], .flush, .send ⟨0, 1, some 2⟩ [8]] := by
  obtain ⟨w, hrun, hiff⟩ := run_delivers_iff doubling le_doubling
    [.send ⟨0, 1, some 1⟩ [7], .flush, .send ⟨0, 1, some 2⟩ [8]] (by simp [Op.Ok])
  have hdel : (run doubling {} [.send ⟨0, 1, some 1⟩ [7], .flush, .send ⟨0, 1, some 2⟩ [8]]).map
      (fun w => delivered 1 w.destroy) = some [⟨[7], ⟨0, 1⟩⟩] := by decide
  rw [hrun, Option.map_some, Option.some.injEq] at hdel
  exact ⟨w, hrun, hdel, (hiff 1).mp hdel⟩

/-- **A frame that is delivered twice:** it waits in the batch of its loop when the first frame
for a loop with a larger index makes the vector grow. -/
theorem run_delivers_twice :
    (run doubling {} [.send ⟨0, 1, some 1⟩ [7], .send ⟨0, 1, some 2⟩ [8]]).map
        (fun w => delivered 1 w.destroy) = some [⟨[7], ⟨0, 1⟩⟩, ⟨[7], ⟨0, 1⟩⟩] ∧
      sentTo 1 [.send ⟨0, 1, some 1⟩ [7], .send ⟨0, 1, some 2⟩ [8]] = [⟨[7], ⟨0, 1⟩⟩] := by
  decide

end MultiBatchWriter
end ICon7
