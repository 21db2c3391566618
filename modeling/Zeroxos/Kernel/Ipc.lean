import Zeroxos.Library.Rust
import Zeroxos.Library.Table
import Zeroxos.Library.Transition

/-!
# Fast messages

`IpcCore` holds the message channels of the kernel in one vector and walks it to the channel a call
names. A channel is a bounded queue; it counts what went in and what came out, and the core counts
the same over all channels.

## The system

A run makes calls in any order, each as a whole. What the clients know is kept next to the core: for
each channel the capacity it was created with, the messages whose `send_fast` succeeded and the
messages received, and all the identifiers handed out.

## The invariant

For each channel, what was received and what waits is what was accepted, in that order: one equation
between lists says that nothing is lost, repeated or overtaken. The capacity in the table is the one
that was asked for, so that a send fails only where the creator of the channel would expect it to
(`ipc_exactly_once`). Identifiers are distinct because a run makes fewer than `2 ^ 64` calls, and
the walk to a channel then changes the one entry with its identifier.
-/

namespace Zeroxos

def fastMsgMax : ℕ := 64

structure FastMessage where
  src : ℕ
  dst : ℕ
  len : ℕ
  payload : Vector UInt8 fastMsgMax
deriving DecidableEq

/-- `FastChannel`. Its lock is held for the whole of `send` and of `recv`. -/
structure FastChannel where
  capacity : ℕ
  buffer : List FastMessage
  sent : ℕ
  received : ℕ
deriving DecidableEq

namespace FastChannel

def new (capacity : ℕ) : FastChannel := ⟨capacity, [], 0, 0⟩

/-- `FastChannel::send`: a full channel hands the message back. -/
def send (msg : FastMessage) (chan : FastChannel) : Except FastMessage Unit × FastChannel :=
  if chan.capacity ≤ chan.buffer.length then (.error msg, chan)
  else (.ok (), { chan with buffer := chan.buffer ++ [msg], sent := wadd chan.sent 1 })

def recv (chan : FastChannel) : Option FastMessage × FastChannel :=
  match chan.buffer with
  | [] => (none, chan)
  | msg :: rest => (some msg, { chan with buffer := rest, received := wadd chan.received 1 })

end FastChannel

structure ShmChannel where
  id : ℕ
  size : ℕ
  producer : ℕ
  consumer : ℕ
deriving DecidableEq

/-- An entry of `fast_channels`: identifier, end points, channel. -/
structure FastEntry where
  id : ℕ
  ends : ℕ
  chan : FastChannel
deriving DecidableEq

structure IpcCore where
  fastChannels : List FastEntry
  shmChannels : List ShmChannel
  nextChannelId : ℕ
  messagesSent : ℕ
  messagesReceived : ℕ
deriving DecidableEq

structure IpcStats where
  fastChannels : ℕ
  shmChannels : ℕ
  messagesSent : ℕ
  messagesReceived : ℕ
deriving DecidableEq

namespace IpcCore

def new : IpcCore := ⟨[], [], 1, 0, 0⟩

def createFastChannel (a b capacity : ℕ) (core : IpcCore) : ℕ × IpcCore :=
  let id := core.nextChannelId
  (id, { core with
    nextChannelId := wadd id 1
    fastChannels := core.fastChannels ++
      [⟨id, (a <<< 32) % wordSize ||| b, FastChannel.new capacity⟩] })

/-- The body of the loop in `send_fast`, at the channel with the right identifier. -/
def sendEntry (msg : FastMessage) (e : FastEntry) : Except String Unit × FastEntry :=
  match e.chan.send msg with
  | (.error _, chan) => (.error "channel full", { e with chan := chan })
  | (.ok (), chan) => (.ok (), { e with chan := chan })

def sendFast (channelId : ℕ) (msg : FastMessage) (core : IpcCore) : Except String Unit × IpcCore :=
  let walk := Table.visit FastEntry.id channelId (sendEntry msg) (.error "no such channel")
    core.fastChannels
  (walk.1, { core with
    fastChannels := walk.2
    messagesSent := if walk.1.toBool then wadd core.messagesSent 1 else core.messagesSent })

/-- The body of the loop in `recv_fast`, at the channel with the right identifier. -/
def recvEntry (e : FastEntry) : Option FastMessage × FastEntry :=
  (e.chan.recv.1, { e with chan := e.chan.recv.2 })

def recvFast (channelId : ℕ) (core : IpcCore) : Option FastMessage × IpcCore :=
  let walk := Table.visit FastEntry.id channelId recvEntry none core.fastChannels
  (walk.1, { core with
    fastChannels := walk.2
    messagesReceived :=
      if walk.1.isSome then wadd core.messagesReceived 1 else core.messagesReceived })

def createShmChannel (producer consumer size : ℕ) (core : IpcCore) : ℕ × IpcCore :=
  let id := core.nextChannelId
  (id, { core with
    nextChannelId := wadd id 1
    shmChannels := core.shmChannels ++ [⟨id, size, producer, consumer⟩] })

def stats (core : IpcCore) : IpcStats :=
  ⟨core.fastChannels.length, core.shmChannels.length, core.messagesSent, core.messagesReceived⟩

/-- The channel with an identifier. -/
def channel (core : IpcCore) (id : ℕ) : Option FastChannel :=
  (Table.lookup FastEntry.id id core.fastChannels).map FastEntry.chan

/-- The messages waiting in a channel; none when there is no such channel. -/
def pending (core : IpcCore) (id : ℕ) : List FastMessage :=
  (core.channel id).elim [] FastChannel.buffer

/-- The channel exists and has no room. -/
def Full (core : IpcCore) (id : ℕ) : Prop :=
  ∃ chan, core.channel id = some chan ∧ chan.capacity ≤ chan.buffer.length

end IpcCore

/-! ## What a call does -/

namespace IpcCore

variable {core : IpcCore} {id id' : ℕ} {msg : FastMessage}

/-- The messages waiting in all channels. -/
def totalPending (core : IpcCore) : ℕ :=
  (core.fastChannels.map fun e ↦ e.chan.buffer.length).sum

theorem channel_eq_none : core.channel id = none ↔ id ∉ core.fastChannels.map FastEntry.id := by
  rw [channel, Option.map_eq_none_iff, Table.lookup_eq_none]
  simp

/-- What a walk to channel `id` that puts a message in, or takes one out, does to the channels. -/
structure Moved (core : IpcCore) (id : ℕ) (core' : IpcCore) (buffer : List FastMessage) :
    Prop where
  ids : core'.fastChannels.map FastEntry.id = core.fastChannels.map FastEntry.id
  pending : ∀ id', core'.pending id' = if id' = id then buffer else core.pending id'
  bounded : (∀ e ∈ core.fastChannels, e.chan.buffer.length ≤ e.chan.capacity) →
    ∀ e ∈ core'.fastChannels, e.chan.buffer.length ≤ e.chan.capacity
  capacity : ∀ id', (core'.channel id').map FastChannel.capacity
    = (core.channel id').map FastChannel.capacity
  total : core'.totalPending + (core.pending id).length = core.totalPending + buffer.length
  nextChannelId : core'.nextChannelId = core.nextChannelId

private theorem moved_visit {β : Type*} {f : FastEntry → β × FastEntry} (none : β) {e : FastEntry}
    (core' : IpcCore) (hkey : ∀ e, (f e).2.id = e.id)
    (hcap : (f e).2.chan.capacity = e.chan.capacity)
    (hlookup : Table.lookup FastEntry.id id core.fastChannels = some e)
    (hbound : (f e).2.chan.buffer.length ≤ (f e).2.chan.capacity)
    (hchans : core'.fastChannels = (Table.visit FastEntry.id id f none core.fastChannels).2)
    (hnext : core'.nextChannelId = core.nextChannelId) :
    core.Moved id core' (f e).2.chan.buffer where
  ids := by rw [hchans, Table.map_key_visit hkey]
  pending id' := by
    rw [pending, channel, hchans, Table.lookup_visit hkey, hlookup]
    split_ifs
    · rfl
    · rfl
  bounded h := by
    rw [hchans]
    refine Table.forall_mem_visit h fun e' he' ↦ ?_
    rw [hlookup] at he'
    cases he'
    exact hbound
  capacity id' := by
    rw [channel, channel, hchans, Table.lookup_visit hkey]
    split_ifs with h
    · rw [h, hlookup, Option.map_some, Option.map_some, Option.map_some, Option.map_some,
        Option.map_some, hcap]
    · rfl
  total := by
    have hsum := Table.sum_visit (f := f) none (fun e ↦ e.chan.buffer.length) hlookup
    rw [totalPending, hchans, pending, channel, hlookup]
    exact hsum
  nextChannelId := hnext

theorem sendFast_unknown (h : core.channel id = none) :
    core.sendFast id msg = (.error "no such channel", core) := by
  simp only [sendFast, Table.visit_of_lookup_eq_none (Option.map_eq_none_iff.mp h)]
  rfl

theorem sendFast_full (h : core.Full id) :
    core.sendFast id msg = (.error "channel full", core) := by
  obtain ⟨chan, hchan, hle⟩ := h
  obtain ⟨e, hlookup, rfl⟩ := Option.map_eq_some_iff.mp hchan
  have hsend : sendEntry msg e = (.error "channel full", e) := by
    rw [sendEntry, FastChannel.send, if_pos hle]
  simp only [sendFast, Table.visit_of_lookup_eq_some hlookup hsend]
  rfl

theorem sendFast_ok (msg : FastMessage) (hexists : core.channel id ≠ none)
    (hroom : ¬core.Full id) :
    ∃ core', core.sendFast id msg = (.ok (), core')
      ∧ core.Moved id core' (core.pending id ++ [msg])
      ∧ core'.messagesSent = wadd core.messagesSent 1
      ∧ core'.messagesReceived = core.messagesReceived := by
  obtain ⟨chan, hchan⟩ := Option.ne_none_iff_exists'.mp hexists
  obtain ⟨e, hlookup, rfl⟩ := Option.map_eq_some_iff.mp hchan
  have hlt : e.chan.buffer.length < e.chan.capacity :=
    not_le.mp fun hle ↦ hroom ⟨e.chan, hchan, hle⟩
  have hsend : sendEntry msg e = (.ok (), { e with chan := { e.chan with
      buffer := e.chan.buffer ++ [msg], sent := wadd e.chan.sent 1 } }) := by
    rw [sendEntry, FastChannel.send, if_neg (not_le.mpr hlt)]
  have hkey : ∀ e, (sendEntry msg e).2.id = e.id := by
    intro e
    rw [sendEntry]
    split <;> rfl
  have hfst : (core.sendFast id msg).1 = .ok () := by
    simp only [sendFast, Table.visit_fst, hlookup, Option.elim, hsend]
  have hpending : core.pending id = e.chan.buffer := by rw [pending, hchan, Option.elim]
  refine ⟨(core.sendFast id msg).2, Prod.ext hfst rfl, ?_, ?_, rfl⟩
  · have hmoved := moved_visit (.error "no such channel") (core.sendFast id msg).2 hkey ?_ hlookup
      ?_ rfl rfl
    · rwa [hsend, ← hpending] at hmoved
    · rw [hsend]
    · rw [hsend, List.length_append]
      exact hlt
  · simp only [sendFast, Table.visit_fst, hlookup, Option.elim, hsend]
    rfl

theorem recvFast_none (h : core.pending id = []) : core.recvFast id = (none, core) := by
  cases hlookup : Table.lookup FastEntry.id id core.fastChannels with
  | none =>
    simp only [recvFast, Table.visit_of_lookup_eq_none hlookup]
    rfl
  | some e =>
    rw [pending, channel, hlookup] at h
    have hrecv : recvEntry e = (none, e) := by
      rw [recvEntry, FastChannel.recv, show e.chan.buffer = [] from h]
    simp only [recvFast, Table.visit_of_lookup_eq_some hlookup hrecv]
    rfl

theorem recvFast_some {rest : List FastMessage} (hcap : ∀ e ∈ core.fastChannels,
    e.chan.buffer.length ≤ e.chan.capacity) (h : core.pending id = msg :: rest) :
    ∃ core', core.recvFast id = (some msg, core') ∧ core.Moved id core' rest
      ∧ core'.messagesReceived = wadd core.messagesReceived 1
      ∧ core'.messagesSent = core.messagesSent := by
  cases hlookup : Table.lookup FastEntry.id id core.fastChannels with
  | none =>
    rw [pending, channel, hlookup] at h
    cases h
  | some e =>
    have hbuffer : e.chan.buffer = msg :: rest := by
      rw [pending, channel, hlookup] at h
      exact h
    have hrecv : recvEntry e = (some msg, { e with chan := { e.chan with
        buffer := rest, received := wadd e.chan.received 1 } }) := by
      rw [recvEntry, FastChannel.recv, hbuffer]
    have hfst : (core.recvFast id).1 = some msg := by
      simp only [recvFast, Table.visit_fst, hlookup, Option.elim, hrecv]
    refine ⟨(core.recvFast id).2, Prod.ext hfst rfl, ?_, ?_, rfl⟩
    · have hmoved := moved_visit (f := recvEntry) none (core.recvFast id).2 (fun _ ↦ rfl) ?_
        hlookup ?_ rfl rfl
      · rwa [hrecv] at hmoved
      · rw [hrecv]
      · have hle := hcap e (Table.mem_of_lookup hlookup)
        rw [hbuffer, List.length_cons] at hle
        rw [hrecv]
        exact Nat.le_of_succ_le hle
    · simp only [recvFast, Table.visit_fst, hlookup, Option.elim, hrecv]
      rfl

theorem pending_createFastChannel (a b capacity id : ℕ) :
    (core.createFastChannel a b capacity).2.pending id = core.pending id := by
  simp only [createFastChannel, pending, channel, Table.lookup_append, Table.lookup_cons]
  cases Table.lookup FastEntry.id id core.fastChannels with
  | some e => rfl
  | none =>
    split_ifs
    · rfl
    · rfl

/-- The new channel has the capacity asked for, when its identifier is new. -/
theorem channel_createFastChannel (a b capacity id : ℕ)
    (hnew : core.channel core.nextChannelId = none) :
    (core.createFastChannel a b capacity).2.channel id
      = if id = core.nextChannelId then some (FastChannel.new capacity) else core.channel id := by
  simp only [createFastChannel, channel, Table.lookup_append, Table.lookup_cons]
  split_ifs with h h' h'
  · rw [h', Option.map_eq_none_iff.mp hnew]
    rfl
  · exact absurd h.symm h'
  · exact absurd h'.symm h
  · rw [Table.lookup_nil, Option.or_none]

theorem totalPending_createFastChannel (a b capacity : ℕ) :
    (core.createFastChannel a b capacity).2.totalPending = core.totalPending := by
  simp [createFastChannel, totalPending, FastChannel.new]

end IpcCore

/-! ## The system -/

/-- The calls a client makes. -/
inductive IpcCall
  | createFastChannel (a b capacity : ℕ)
  | createShmChannel (producer consumer size : ℕ)
  | sendFast (channelId : ℕ) (msg : FastMessage)
  | recvFast (channelId : ℕ)

/-- The core, and what its clients know. -/
structure IpcSys where
  core : IpcCore
  /-- The messages whose `send_fast` succeeded, by channel. -/
  accepted : ℕ → List FastMessage
  /-- The messages received, by channel. -/
  received : ℕ → List FastMessage
  /-- The identifiers handed out. -/
  issued : List ℕ
  /-- Those among them that `create_fast_channel` returned. -/
  fastIds : List ℕ
  /-- The capacity that was asked for, by channel. -/
  capacities : ℕ → ℕ
  /-- How many calls were made. -/
  calls : ℕ

namespace IpcSys

/-- Before the first call. -/
def new : IpcSys := ⟨IpcCore.new, fun _ ↦ [], fun _ ↦ [], [], [], fun _ ↦ 0, 0⟩

/-- One call. -/
def next (s : IpcSys) : IpcCall → IpcSys
  | .createFastChannel a b capacity =>
    let (id, core) := s.core.createFastChannel a b capacity
    { s with
      core := core
      issued := s.issued ++ [id]
      fastIds := s.fastIds ++ [id]
      capacities := Function.update s.capacities id capacity
      calls := s.calls + 1 }
  | .createShmChannel producer consumer size =>
    let (id, core) := s.core.createShmChannel producer consumer size
    { s with core := core, issued := s.issued ++ [id], calls := s.calls + 1 }
  | .sendFast id msg =>
    let (r, core) := s.core.sendFast id msg
    { s with
      core := core
      accepted :=
        if r.toBool then Function.update s.accepted id (s.accepted id ++ [msg]) else s.accepted
      calls := s.calls + 1 }
  | .recvFast id =>
    let (m, core) := s.core.recvFast id
    { s with
      core := core
      received := m.elim s.received fun msg ↦
        Function.update s.received id (s.received id ++ [msg])
      calls := s.calls + 1 }

/-- The core and its contract: fewer than `2 ^ 64` calls are made. -/
def machine : Machine IpcSys IpcCall where
  init s := s = new
  Legal s _ := s.calls + 1 < wordSize
  next s call := some (s.next call)

/-! ## The invariant -/

/-- **The invariant.** -/
structure Inv (s : IpcSys) : Prop where
  fifo : ∀ id, s.received id ++ s.core.pending id = s.accepted id
  bounded : ∀ e ∈ s.core.fastChannels, e.chan.buffer.length ≤ e.chan.capacity
  capacity : ∀ id ∈ s.fastIds, (s.core.channel id).map FastChannel.capacity
    = some (s.capacities id)
  total : s.core.messagesReceived + s.core.totalPending = s.core.messagesSent
  sent_le : s.core.messagesSent ≤ s.calls
  issued : s.issued = List.range' 1 s.issued.length
  fastIds : s.core.fastChannels.map FastEntry.id = s.fastIds
  sublist : s.fastIds.Sublist s.issued
  nextChannelId : s.core.nextChannelId = (s.issued.length + 1) % wordSize
  issued_le : s.issued.length ≤ s.calls
  calls_lt : s.calls < wordSize

theorem inv_new : new.Inv where
  fifo _ := rfl
  bounded e he := by cases he
  capacity id hid := by cases hid
  total := rfl
  sent_le := le_refl _
  issued := rfl
  fastIds := rfl
  sublist := List.Sublist.refl _
  nextChannelId := rfl
  issued_le := le_refl _
  calls_lt := by norm_num [new, wordSize]

variable {s : IpcSys} {core : IpcCore}

private theorem inv_create (h : s.Inv) (hl : s.calls + 1 < wordSize) {fastIds : List ℕ}
    {capacities : ℕ → ℕ}
    (hcapacity : ∀ id ∈ fastIds,
      (core.channel id).map FastChannel.capacity = some (capacities id))
    (hpending : ∀ id, core.pending id = s.core.pending id)
    (hbounded : ∀ e ∈ core.fastChannels, e.chan.buffer.length ≤ e.chan.capacity)
    (htotal : core.totalPending = s.core.totalPending)
    (hids : core.fastChannels.map FastEntry.id = fastIds)
    (hsub : fastIds.Sublist (s.issued ++ [s.core.nextChannelId]))
    (hnext : core.nextChannelId = wadd s.core.nextChannelId 1)
    (hsent : core.messagesSent = s.core.messagesSent)
    (hreceived : core.messagesReceived = s.core.messagesReceived) :
    ({ s with
        core := core
        issued := s.issued ++ [s.core.nextChannelId]
        fastIds := fastIds
        capacities := capacities
        calls := s.calls + 1 } : IpcSys).Inv := by
  have hlen := h.issued_le
  have hid : s.core.nextChannelId = s.issued.length + 1 :=
    h.nextChannelId.trans (Nat.mod_eq_of_lt (by omega))
  refine ⟨?_, hbounded, hcapacity, ?_, ?_, ?_, hids, hsub, ?_, ?_, hl⟩
  · intro id
    rw [hpending]
    exact h.fifo id
  · rw [htotal, hsent, hreceived]
    exact h.total
  · rw [hsent]
    exact h.sent_le.trans (Nat.le_succ _)
  · rw [List.length_append, List.length_singleton, List.range'_concat, ← h.issued, hid,
      Nat.one_mul, Nat.add_comm 1]
  · rw [hnext, hid, List.length_append, List.length_singleton]
    rfl
  · rw [List.length_append, List.length_singleton]
    exact Nat.succ_le_succ hlen

private theorem inv_failed (h : s.Inv) (hl : s.calls + 1 < wordSize) :
    ({ s with calls := s.calls + 1 } : IpcSys).Inv :=
  { h with
    sent_le := h.sent_le.trans (Nat.le_succ _)
    issued_le := h.issued_le.trans (Nat.le_succ _)
    calls_lt := hl }

private theorem inv_moved (h : s.Inv) (hl : s.calls + 1 < wordSize) {id : ℕ}
    {buffer accepted received : List FastMessage} (hmoved : s.core.Moved id core buffer)
    (hfifo : received ++ buffer = accepted)
    (htotal : core.messagesReceived + core.totalPending = core.messagesSent)
    (hsent : core.messagesSent ≤ s.calls + 1) :
    ({ s with
        core := core
        accepted := Function.update s.accepted id accepted
        received := Function.update s.received id received
        calls := s.calls + 1 } : IpcSys).Inv := by
  refine ⟨?_, hmoved.bounded h.bounded,
    fun id' hid' ↦ (hmoved.capacity id').trans (h.capacity id' hid'), htotal, hsent, h.issued,
    hmoved.ids.trans h.fastIds, h.sublist, hmoved.nextChannelId.trans h.nextChannelId,
    h.issued_le.trans (Nat.le_succ _), hl⟩
  intro id'
  dsimp only
  rw [hmoved.pending]
  rcases eq_or_ne id' id with rfl | hne
  · rw [if_pos rfl, Function.update_self, Function.update_self, hfifo]
  · rw [if_neg hne, Function.update_of_ne hne, Function.update_of_ne hne, h.fifo]

theorem Inv.channel_eq_none (h : s.Inv) (id : ℕ) : s.core.channel id = none ↔ id ∉ s.fastIds := by
  rw [IpcCore.channel_eq_none, h.fastIds]

private theorem nextChannelId_notMem (h : s.Inv) (hl : s.calls + 1 < wordSize) :
    s.core.nextChannelId ∉ s.issued := by
  have hlen := h.issued_le
  rw [h.nextChannelId, Nat.mod_eq_of_lt (by omega), h.issued, List.mem_range'_1]
  rw [List.length_range']
  omega

private theorem inv_capacity_createFastChannel (h : s.Inv) (hl : s.calls + 1 < wordSize)
    (a b capacity : ℕ) :
    ∀ id ∈ s.fastIds ++ [s.core.nextChannelId],
      ((s.core.createFastChannel a b capacity).2.channel id).map FastChannel.capacity
        = some (Function.update s.capacities s.core.nextChannelId capacity id) := by
  have hfresh : s.core.nextChannelId ∉ s.fastIds :=
    fun hmem ↦ nextChannelId_notMem h hl (h.sublist.subset hmem)
  intro id hid
  rw [IpcCore.channel_createFastChannel a b capacity id ((h.channel_eq_none _).mpr hfresh)]
  rcases eq_or_ne id s.core.nextChannelId with rfl | hne
  · rw [if_pos rfl, Function.update_self, Option.map_some, FastChannel.new]
  · rw [if_neg hne, Function.update_of_ne hne]
    refine h.capacity id ((List.mem_append.mp hid).resolve_right fun hmem ↦ hne ?_)
    exact List.mem_singleton.mp hmem

theorem inv_next (h : s.Inv) {call : IpcCall} (hl : s.calls + 1 < wordSize) :
    (s.next call).Inv := by
  have hcounts := h.total
  have hsent_le := h.sent_le
  cases call with
  | createFastChannel a b capacity =>
    refine inv_create h hl (inv_capacity_createFastChannel h hl a b capacity)
      (IpcCore.pending_createFastChannel a b capacity) ?_
      (IpcCore.totalPending_createFastChannel a b capacity) ?_ (h.sublist.append_right _)
      rfl rfl rfl
    · intro e he
      rcases List.mem_append.mp he with he | he
      · exact h.bounded e he
      · rw [List.mem_singleton.mp he]
        exact Nat.zero_le _
    · rw [← h.fastIds]
      exact List.map_append
  | createShmChannel producer consumer size =>
    exact inv_create h hl h.capacity (fun _ ↦ rfl) h.bounded rfl h.fastIds
      (h.sublist.trans (List.sublist_append_left _ _)) rfl rfl rfl
  | sendFast id msg =>
    by_cases hexists : s.core.channel id = none
    · rw [next, IpcCore.sendFast_unknown hexists]
      exact inv_failed h hl
    by_cases hfull : s.core.Full id
    · rw [next, IpcCore.sendFast_full hfull]
      exact inv_failed h hl
    obtain ⟨core', hsend, hmoved, hsent, hreceived⟩ := IpcCore.sendFast_ok msg hexists hfull
    have htotal := hmoved.total
    rw [List.length_append, List.length_singleton] at htotal
    rw [wadd_of_lt (by omega)] at hsent
    have hfifo : s.received id ++ (s.core.pending id ++ [msg]) = s.accepted id ++ [msg] := by
      rw [← List.append_assoc, h.fifo]
    have hinv := inv_moved h hl hmoved hfifo (by omega) (by omega)
    rw [Function.update_eq_self] at hinv
    rw [next, hsend]
    exact hinv
  | recvFast id =>
    cases hpending : s.core.pending id with
    | nil =>
      rw [next, IpcCore.recvFast_none hpending]
      exact inv_failed h hl
    | cons msg rest =>
      obtain ⟨core', hrecv, hmoved, hreceived, hsent⟩ := IpcCore.recvFast_some h.bounded hpending
      have htotal := hmoved.total
      rw [hpending, List.length_cons] at htotal
      rw [wadd_of_lt (by omega)] at hreceived
      have hfifo : s.received id ++ [msg] ++ rest = s.accepted id := by
        rw [List.append_assoc, List.singleton_append, ← hpending, h.fifo]
      have hinv := inv_moved h hl hmoved hfifo (by omega) (by omega)
      rw [Function.update_eq_self] at hinv
      rw [next, hrecv]
      exact hinv

theorem inv_of_reachable (hs : machine.system.Reachable s) : s.Inv := by
  refine hs.invariant (P := Inv) (fun s hs ↦ ?_) (fun s call s' _ hinv hstep ↦ ?_)
  · rw [hs]
    exact inv_new
  · obtain ⟨hl, hnext⟩ := hstep
    obtain rfl := Option.some.inj hnext
    exact inv_next hinv hl

/-! ## Exactly once, in order -/

theorem Inv.issued_nodup (h : s.Inv) : s.issued.Nodup := by
  rw [h.issued]
  exact List.nodup_range'

/-- Identifiers being distinct, the messages in the table are those waiting in the channels. -/
theorem Inv.totalPending (h : s.Inv) :
    s.core.totalPending = (s.fastIds.map fun id ↦ (s.core.pending id).length).sum := by
  rw [IpcCore.totalPending, ← h.fastIds, List.map_map]
  congr 1
  refine List.map_congr_left fun e he ↦ ?_
  have hnodup : (s.core.fastChannels.map FastEntry.id).Nodup := by
    rw [h.fastIds]
    exact h.issued_nodup.sublist h.sublist
  have hlookup := (Table.lookup_eq_some_iff hnodup).mpr ⟨he, rfl⟩
  rw [Function.comp_apply, IpcCore.pending, IpcCore.channel, hlookup]
  rfl

/-- A channel is full when as many messages wait as its creator asked room for. -/
theorem Inv.full_iff (h : s.Inv) {id : ℕ} (hid : id ∈ s.fastIds) :
    s.core.Full id ↔ s.capacities id ≤ (s.core.pending id).length := by
  obtain ⟨chan, hchan, hcap⟩ := Option.map_eq_some_iff.mp (h.capacity id hid)
  rw [IpcCore.Full, IpcCore.pending, hchan, ← hcap]
  refine ⟨?_, fun hle ↦ ⟨chan, rfl, hle⟩⟩
  rintro ⟨chan', hchan', hle⟩
  rw [Option.some.inj hchan']
  exact hle

/-- Every accepted message is delivered once, in order, on its own channel; no channel holds more
messages than it was asked room for when it was created; a call fails only for the reason it gives,
and then does nothing; and the statistics count what is under way. -/
structure ExactlyOnce (s : IpcSys) : Prop where
  fifo : ∀ id, s.received id ++ s.core.pending id = s.accepted id
  bounded : ∀ id, (s.core.pending id).length ≤ s.capacities id
  send_fails_iff : ∀ id msg, (s.core.sendFast id msg).1.toBool = false
    ↔ id ∉ s.fastIds ∨ s.capacities id ≤ (s.core.pending id).length
  send_fails : ∀ id msg, (s.core.sendFast id msg).1.toBool = false →
    (s.core.sendFast id msg).2 = s.core
  recv_none_iff : ∀ id, (s.core.recvFast id).1 = none ↔ id ∉ s.fastIds ∨ s.core.pending id = []
  recv_none : ∀ id, (s.core.recvFast id).1 = none → (s.core.recvFast id).2 = s.core
  issued_nodup : s.issued.Nodup
  stats : s.core.stats.messagesReceived ≤ s.core.stats.messagesSent
    ∧ s.core.stats.messagesSent - s.core.stats.messagesReceived
      = (s.fastIds.map fun id ↦ (s.core.pending id).length).sum

private theorem sendFast_cases (h : s.Inv) (id : ℕ) (msg : FastMessage) :
    ((s.core.sendFast id msg).1.toBool = false
        ↔ id ∉ s.fastIds ∨ s.capacities id ≤ (s.core.pending id).length)
      ∧ ((s.core.sendFast id msg).1.toBool = false → (s.core.sendFast id msg).2 = s.core) := by
  have hknown := h.channel_eq_none id
  by_cases hid : id ∈ s.fastIds
  · have hexists : s.core.channel id ≠ none := fun hnone ↦ hknown.mp hnone hid
    rw [← h.full_iff hid]
    by_cases hfull : s.core.Full id
    · rw [IpcCore.sendFast_full hfull]
      exact ⟨iff_of_true rfl (.inr hfull), fun _ ↦ rfl⟩
    · obtain ⟨core', hsend, -⟩ := IpcCore.sendFast_ok msg hexists hfull
      rw [hsend]
      exact ⟨iff_of_false nofun (not_or.mpr ⟨not_not.mpr hid, hfull⟩), nofun⟩
  · rw [IpcCore.sendFast_unknown (hknown.mpr hid)]
    exact ⟨iff_of_true rfl (.inl hid), fun _ ↦ rfl⟩

private theorem recvFast_cases (h : s.Inv) (id : ℕ) :
    ((s.core.recvFast id).1 = none ↔ id ∉ s.fastIds ∨ s.core.pending id = [])
      ∧ ((s.core.recvFast id).1 = none → (s.core.recvFast id).2 = s.core) := by
  cases hpending : s.core.pending id with
  | nil =>
    rw [IpcCore.recvFast_none hpending]
    exact ⟨iff_of_true rfl (.inr rfl), fun _ ↦ rfl⟩
  | cons msg rest =>
    obtain ⟨core', hrecv, -⟩ := IpcCore.recvFast_some h.bounded hpending
    rw [hrecv]
    refine ⟨iff_of_false nofun ?_, nofun⟩
    rintro (hunknown | hnil)
    · rw [IpcCore.pending, (h.channel_eq_none id).mpr hunknown] at hpending
      cases hpending
    · cases hnil

end IpcSys

/-- **Fast messages are delivered exactly once.** In every state that clients reach with fewer than
`2 ^ 64` calls, the messages received on a channel and those still waiting are, in order, the
messages accepted there. -/
theorem ipc_exactly_once {s : IpcSys} (hs : IpcSys.machine.system.Reachable s) :
    s.ExactlyOnce := by
  have h := IpcSys.inv_of_reachable hs
  refine ⟨h.fifo, ?_, fun id msg ↦ (IpcSys.sendFast_cases h id msg).1,
    fun id msg ↦ (IpcSys.sendFast_cases h id msg).2, fun id ↦ (IpcSys.recvFast_cases h id).1,
    fun id ↦ (IpcSys.recvFast_cases h id).2, h.issued_nodup, ?_⟩
  · intro id
    by_cases hid : id ∈ s.fastIds
    · obtain ⟨chan, hchan, hcap⟩ := Option.map_eq_some_iff.mp (h.capacity id hid)
      obtain ⟨e, hlookup, rfl⟩ := Option.map_eq_some_iff.mp hchan
      rw [IpcCore.pending, hchan, ← hcap]
      exact h.bounded e (Table.mem_of_lookup hlookup)
    · rw [IpcCore.pending, (h.channel_eq_none id).mpr hid]
      exact Nat.zero_le _
  · rw [← h.totalPending]
    have htotal := h.total
    simp only [IpcCore.stats]
    omega

/-- A channel of one: the first message is accepted, a second is not, and the first is the one that
is received. -/
theorem ipc_exactly_once_sent :
    let msg : FastMessage := ⟨1, 2, 0, Vector.replicate 64 0⟩
    let s := (IpcSys.new.next (.createFastChannel 1 2 1)).next (.sendFast 1 msg)
    s.ExactlyOnce ∧ s.capacities 1 = 1 ∧ s.accepted 1 = [msg] ∧ s.core.pending 1 = [msg]
      ∧ (s.core.sendFast 1 msg).1 = .error "channel full" ∧ (s.core.recvFast 1).1 = some msg := by
  intro msg s
  have hnew : IpcSys.machine.system.Reachable IpcSys.new := .init rfl
  have htwo : 2 < wordSize := by
    rw [wordSize]
    omega
  have hone : 1 < wordSize := Nat.lt_of_succ_lt htwo
  have hcreated : IpcSys.machine.system.Reachable (IpcSys.new.next (.createFastChannel 1 2 1)) :=
    .step (e := .createFastChannel 1 2 1) hnew ⟨hone, rfl⟩
  have hsent : IpcSys.machine.system.Reachable s :=
    .step (e := .sendFast 1 msg) hcreated ⟨htwo, rfl⟩
  exact ⟨ipc_exactly_once hsent, rfl, rfl, rfl, rfl, rfl⟩

end Zeroxos
