import Zeroxos.Kernel.Security
import Zeroxos.Library.Rust
import Zeroxos.Library.Table
import Zeroxos.Library.Transition

/-!
# The process and thread tables

Which thread belongs to which process is stored twice: a process lists its threads, and a thread
record names its process. `spawn_thread` writes both, `kill` and `exit` drop the records and leave
the list alone, and none of the three asks whether the process exists or is still alive.

## Agreement

The two sides agree along a run as long as threads are only given to processes that exist and only
processes without threads are terminated (`tables_consistent`).

## Termination

A terminated process stays as it is as long as later calls about it would not change it anyway
(`termination_final`). `Final` compares two states of a run, so that a process terminated in the
first is followed to the second.

Each of the two conditions is exact: a call that breaks it breaks the property. A vector that cannot
grow ends the kernel, so a call may also not return, and nothing is said of that.
-/

namespace Zeroxos

inductive ProcessState
  | new
  | runnable
  | blocked
  | exited (code : Int32)
  | killed
deriving DecidableEq, Repr

/-- `Process`; a `Pid` and a `ThreadId` are words. -/
structure Process where
  pid : ℕ
  parent : Option ℕ
  name : String
  state : ProcessState
  threads : List ℕ
  /-- A `CapabilitySet`. -/
  caps : List Capability
  isGame : Bool
  isForeground : Bool
  startedNs : ℕ
  cpuTimeNs : ℕ
deriving DecidableEq, Repr

def Process.new (pid : ℕ) (name : String) : Process where
  pid := pid
  parent := none
  name := name
  state := .new
  threads := []
  caps := []
  isGame := false
  isForeground := false
  startedNs := 0
  cpuTimeNs := 0

namespace ProcessTable

/-- `ThreadState` of the process table. -/
inductive ThreadState
  | ready
  | running
  | blocked
  | exited
deriving DecidableEq, Repr

structure Thread where
  tid : ℕ
  pid : ℕ
  state : ThreadState
  userStackTop : ℕ
  kernelStackTop : ℕ
deriving DecidableEq, Repr

def Thread.new (tid pid : ℕ) : Thread := ⟨tid, pid, .ready, 0, 0⟩

end ProcessTable

structure ProcessTable where
  processes : List Process
  threads : List ProcessTable.Thread
  nextPid : ℕ
  nextTid : ℕ
deriving DecidableEq, Repr

namespace ProcessTable

def new : ProcessTable := ⟨[], [], 1, 1⟩

def get (pid : ℕ) (t : ProcessTable) : Option Process := Table.lookup Process.pid pid t.processes

/-- Change the process of the given pid, if there is one. -/
def update (pid : ℕ) (f : Process → Process) (t : ProcessTable) : ProcessTable :=
  { t with processes := (Table.visit Process.pid pid (fun p ↦ ((), f p)) () t.processes).2 }

/-- `ProcessTable::spawn`; `nowNs` is what the timer reads. -/
def spawn (name : String) (nowNs : ℕ) (t : ProcessTable) : Option (ℕ × ProcessTable) := do
  let pid := t.nextPid
  let p := { Process.new pid name with startedNs := nowNs, state := .runnable }
  let processes ← push p t.processes
  some (pid, { t with nextPid := wadd pid 1, processes := processes })

def spawnThread (pid : ℕ) (t : ProcessTable) : Option (ℕ × ProcessTable) := do
  let tid := t.nextTid
  let threads ← push (Thread.new tid pid) t.threads
  let t := { t with nextTid := wadd tid 1, threads := threads }
  match t.get pid with
  | none => some (tid, t)
  | some p =>
    let listed ← push tid p.threads
    some (tid, t.update pid fun p ↦ { p with threads := listed })

/-- What `kill` and `exit` share: the process gets its last state, and its threads are dropped. -/
def terminate (pid : ℕ) (state : ProcessState) (t : ProcessTable) : ProcessTable :=
  let t := t.update pid fun p ↦ { p with state := state }
  { t with threads := t.threads.filter fun t ↦ t.pid ≠ pid }

def kill (pid : ℕ) : ProcessTable → ProcessTable := terminate pid .killed

def exit (pid : ℕ) (code : Int32) : ProcessTable → ProcessTable := terminate pid (.exited code)

end ProcessTable

/-! ## The system -/

/-- The calls. -/
inductive ProcessCall
  | spawn (name : String) (nowNs : ℕ)
  | spawnThread (pid : ℕ)
  | kill (pid : ℕ)
  | exit (pid : ℕ) (code : Int32)
deriving DecidableEq, Repr

namespace ProcessTable

/-- One call, `none` when it does not return. -/
def next (s : ProcessTable) : ProcessCall → Option ProcessTable
  | .spawn name nowNs => (s.spawn name nowNs).map Prod.snd
  | .spawnThread pid => (s.spawnThread pid).map Prod.snd
  | .kill pid => some (s.kill pid)
  | .exit pid code => some (s.exit pid code)

/-- The table, with a contract for its callers. -/
def machine (guard : ProcessTable → ProcessCall → Prop) : Machine ProcessTable ProcessCall where
  init s := s = new
  Legal := guard
  next := next

/-- **The two sides agree**: a listed thread has one record, of the process that lists it, and a
record belongs to a process that lists its thread once. -/
structure Consistent (s : ProcessTable) : Prop where
  listed : ∀ p ∈ s.processes, ∀ tid ∈ p.threads,
    ∃ t, s.threads.filter (fun t ↦ t.tid = tid) = [t] ∧ t.pid = p.pid
  recorded : ∀ t ∈ s.threads, ∃ p ∈ s.processes, p.pid = t.pid ∧ p.threads.count t.tid = 1

/-- Threads are given to processes that exist, and processes without threads are terminated. -/
def Kept (s : ProcessTable) : ProcessCall → Prop
  | .spawn _ _ => True
  | .spawnThread pid => ∃ p, s.get pid = some p
  | .kill pid | .exit pid _ => ∀ p, s.get pid = some p → p.threads = []

end ProcessTable

/-- The process was killed or has exited. -/
def Process.Terminated (p : Process) : Prop := p.state = .killed ∨ ∃ code, p.state = .exited code

theorem Process.not_terminated {p : Process} (h : p.state = .runnable) : ¬ p.Terminated := by
  rw [Terminated, h]
  simp

namespace ProcessTable

/-- **Termination is final**: what is terminated in the one table has the same state in the other
and no thread there. -/
def Final (s s' : ProcessTable) : Prop :=
  ∀ pid p, s.get pid = some p → p.Terminated →
    (s'.get pid).map Process.state = some p.state ∧ ∀ t ∈ s'.threads, t.pid ≠ pid

/-- If the process is terminated, then in this state. -/
def Stands (s : ProcessTable) (pid : ℕ) (state : ProcessState) : Prop :=
  ∀ p, s.get pid = some p → p.Terminated → p.state = state

/-- No thread is given to a terminated process, and a terminated process is terminated again only
the way it was. -/
def LeavesDead (s : ProcessTable) : ProcessCall → Prop
  | .spawn _ _ => True
  | .spawnThread pid => ∀ p, s.get pid = some p → ¬ p.Terminated
  | .kill pid => s.Stands pid .killed
  | .exit pid code => s.Stands pid (.exited code)

/-! ## What a call does -/

variable {s s' : ProcessTable} {pid : ℕ} {p : Process} {call : ProcessCall}

/-- Pids are handed out in order, and no process is ever removed. -/
structure Numbered (s : ProcessTable) : Prop where
  pids : s.processes.map Process.pid = List.range' 1 s.processes.length
  length : s.processes.length ≤ vecCapacity
  nextPid : s.nextPid = s.processes.length + 1

theorem Numbered.nodup (h : s.Numbered) : (s.processes.map Process.pid).Nodup := by
  rw [h.pids]
  exact List.nodup_range'

theorem Numbered.pid_ne (h : s.Numbered) (hp : p ∈ s.processes) : p.pid ≠ s.nextPid := by
  have hmem := List.mem_map_of_mem (f := Process.pid) hp
  rw [h.pids, List.mem_range'_1] at hmem
  rw [h.nextPid]
  omega

theorem Numbered.wadd_nextPid (h : s.Numbered) : wadd s.nextPid 1 = s.nextPid + 1 := by
  refine wadd_of_lt ?_
  have hlength := h.length
  rw [h.nextPid]
  rw [vecCapacity] at hlength
  rw [wordSize]
  omega

theorem Numbered.get_eq_some (h : s.Numbered) :
    s.get pid = some p ↔ p ∈ s.processes ∧ p.pid = pid :=
  Table.lookup_eq_some_iff h.nodup

theorem next_spawn {name : String} {nowNs : ℕ} (hs' : s.next (.spawn name nowNs) = some s') :
    s.processes.length < vecCapacity ∧
      s' = { s with
        nextPid := wadd s.nextPid 1
        processes := s.processes ++
          [{ Process.new s.nextPid name with startedNs := nowNs, state := .runnable }] } := by
  rw [next, spawn] at hs'
  obtain ⟨r, hr, rfl⟩ := Option.map_eq_some_iff.mp hs'
  obtain ⟨processes, hpush, hr⟩ := Option.bind_eq_some_iff.mp hr
  obtain ⟨hlength, rfl⟩ := push_eq_some.mp hpush
  exact ⟨hlength, by rw [← Option.some.inj hr]⟩

theorem update_eq_map (hnodup : (s.processes.map Process.pid).Nodup) (f : Process → Process) :
    s.update pid f
      = { s with processes := s.processes.map fun p ↦ if p.pid = pid then f p else p } := by
  rw [update, Table.visit_snd_eq_map hnodup]

theorem next_spawnThread (h : s.Numbered) (hs' : s.next (.spawnThread pid) = some s') :
    s.threads.length < vecCapacity ∧
      s' = { s with
        nextTid := wadd s.nextTid 1
        threads := s.threads ++ [Thread.new s.nextTid pid]
        processes := s.processes.map fun p ↦
          if p.pid = pid then { p with threads := p.threads ++ [s.nextTid] } else p } := by
  rw [next, spawnThread] at hs'
  obtain ⟨r, hr, rfl⟩ := Option.map_eq_some_iff.mp hs'
  obtain ⟨threads, hpush, hr⟩ := Option.bind_eq_some_iff.mp hr
  obtain ⟨hlength, rfl⟩ := push_eq_some.mp hpush
  refine ⟨hlength, ?_⟩
  dsimp only [get] at hr
  cases hget : Table.lookup Process.pid pid s.processes with
  | none =>
    rw [hget] at hr
    rw [← Option.some.inj hr]
    have hid : s.processes.map (fun p ↦
        if p.pid = pid then { p with threads := p.threads ++ [s.nextTid] } else p)
        = s.processes := by
      refine (List.map_congr_left fun p hp ↦ ?_).trans (List.map_id _)
      rw [if_neg (Table.lookup_eq_none.mp hget p hp), id]
    rw [hid]
  | some p =>
    rw [hget] at hr
    obtain ⟨listed, hlist, hr⟩ := Option.bind_eq_some_iff.mp hr
    obtain ⟨-, rfl⟩ := push_eq_some.mp hlist
    rw [← Option.some.inj hr]
    refine (update_eq_map ?_ _).trans ?_
    · exact h.nodup
    congr 1
    refine List.map_congr_left fun q hq ↦ ite_congr rfl (fun hqp ↦ ?_) fun _ ↦ rfl
    obtain rfl := Option.some.inj (hget.symm.trans (h.get_eq_some.mpr ⟨hq, hqp⟩))
    rfl

theorem terminate_eq (h : s.Numbered) (state : ProcessState) :
    s.terminate pid state
      = { s with
          processes := s.processes.map fun p ↦ if p.pid = pid then { p with state := state } else p
          threads := s.threads.filter fun t ↦ t.pid ≠ pid } := by
  rw [terminate, update_eq_map h.nodup]

theorem numbered_new : new.Numbered := ⟨rfl, Nat.zero_le _, rfl⟩

/-- Whatever else a call does to the processes, a table whose pids are as before is numbered. -/
theorem Numbered.map (h : s.Numbered) {f : Process → Process} (hf : ∀ p, (f p).pid = p.pid)
    (threads : List Thread) (nextTid : ℕ) :
    Numbered ⟨s.processes.map f, threads, s.nextPid, nextTid⟩ where
  pids := by
    rw [List.map_map, List.length_map, ← h.pids]
    exact List.map_congr_left fun p _ ↦ hf p
  length := by
    rw [List.length_map]
    exact h.length
  nextPid := by
    rw [List.length_map]
    exact h.nextPid

theorem Numbered.next (h : s.Numbered) (hs' : s.next call = some s') : s'.Numbered := by
  cases call with
  | spawn name nowNs =>
    obtain ⟨hlength, rfl⟩ := next_spawn hs'
    refine ⟨?_, ?_, ?_⟩
    · dsimp only
      rw [List.map_append, h.pids, List.length_append, List.range'_append_1.symm,
        List.map_singleton, show Process.pid _ = s.nextPid from rfl, h.nextPid, Nat.add_comm _ 1]
      rfl
    · dsimp only
      rw [List.length_append]
      exact hlength
    · dsimp only
      rw [h.wadd_nextPid, h.nextPid, List.length_append]
      rfl
  | spawnThread pid =>
    obtain ⟨-, rfl⟩ := next_spawnThread h hs'
    exact h.map (fun p ↦ by split_ifs <;> rfl) _ _
  | kill pid =>
    rw [← Option.some.inj hs', kill, terminate_eq h]
    exact h.map (fun p ↦ by split_ifs <;> rfl) _ _
  | exit pid code =>
    rw [← Option.some.inj hs', exit, terminate_eq h]
    exact h.map (fun p ↦ by split_ifs <;> rfl) _ _

/-! ## Agreement -/

/-- **The invariant** while every call is `Kept`: nothing was ever removed, and a process lists what
is recorded for it. -/
structure Inv (s : ProcessTable) : Prop where
  numbered : s.Numbered
  tids : s.threads.map Thread.tid = List.range' 1 s.threads.length
  length : s.threads.length ≤ vecCapacity
  nextTid : s.nextTid = s.threads.length + 1
  threads : ∀ p ∈ s.processes,
    p.threads = (s.threads.filter fun t ↦ t.pid = p.pid).map Thread.tid
  owner : ∀ t ∈ s.threads, ∃ p ∈ s.processes, p.pid = t.pid

theorem inv_new : new.Inv := ⟨numbered_new, rfl, Nat.zero_le _, rfl, nofun, nofun⟩

theorem Inv.nodup (h : s.Inv) : (s.threads.map Thread.tid).Nodup := by
  rw [h.tids]
  exact List.nodup_range'

theorem Inv.consistent (h : s.Inv) : s.Consistent where
  listed p hp tid htid := by
    rw [h.threads p hp] at htid
    obtain ⟨t, ht, rfl⟩ := List.mem_map.mp htid
    obtain ⟨hmem, hpid⟩ := List.mem_filter.mp ht
    exact ⟨t, Table.filter_eq_singleton h.nodup hmem, of_decide_eq_true hpid⟩
  recorded t ht := by
    obtain ⟨p, hp, hpid⟩ := h.owner t ht
    refine ⟨p, hp, hpid, ?_⟩
    rw [h.threads p hp]
    refine List.count_eq_one_of_mem ((List.filter_sublist.map _).nodup h.nodup) ?_
    exact List.mem_map_of_mem (List.mem_filter.mpr ⟨ht, decide_eq_true hpid.symm⟩)

theorem Inv.spawn {name : String} {nowNs : ℕ} (h : s.Inv)
    (hs' : s.next (.spawn name nowNs) = some s') : s'.Inv := by
  have hnumbered := h.numbered.next hs'
  obtain ⟨-, rfl⟩ := next_spawn hs'
  refine ⟨hnumbered, h.tids, h.length, h.nextTid, fun p hp ↦ ?_, fun t ht ↦ ?_⟩
  · rcases List.mem_append.mp hp with hp | hp
    · exact h.threads p hp
    · rw [List.mem_singleton.mp hp]
      refine (List.map_eq_nil_iff.mpr (List.filter_eq_nil_iff.mpr fun t ht hpid ↦ ?_)).symm
      obtain ⟨q, hq, hqt⟩ := h.owner t ht
      exact h.numbered.pid_ne hq (hqt.trans (of_decide_eq_true hpid))
  · obtain ⟨p, hp, hpid⟩ := h.owner t ht
    exact ⟨p, List.mem_append_left _ hp, hpid⟩

theorem Inv.spawnThread (h : s.Inv) (hp : ∃ p, s.get pid = some p)
    (hs' : s.next (.spawnThread pid) = some s') : s'.Inv := by
  have hnumbered := h.numbered.next hs'
  obtain ⟨hlength, rfl⟩ := next_spawnThread h.numbered hs'
  have hcapacity : s.nextTid + 1 < wordSize := by
    rw [h.nextTid]
    rw [vecCapacity] at hlength
    rw [wordSize]
    omega
  refine ⟨hnumbered, ?_, ?_, ?_, fun p hp ↦ ?_, fun t ht ↦ ?_⟩
  · rw [List.map_append, h.tids, List.length_append, List.range'_append_1.symm, List.map_singleton,
      show (Thread.new s.nextTid pid).tid = s.nextTid from rfl, h.nextTid, Nat.add_comm _ 1]
    rfl
  · rw [List.length_append]
    exact hlength
  · dsimp only
    rw [wadd_of_lt hcapacity, h.nextTid, List.length_append]
    rfl
  · obtain ⟨q, hq, rfl⟩ := List.mem_map.mp hp
    have hpid : (if q.pid = pid then { q with threads := q.threads ++ [s.nextTid] } else q).pid
        = q.pid := by
      split_ifs <;> rfl
    rw [hpid, List.filter_append, List.map_append, ← h.threads q hq]
    by_cases hqp : q.pid = pid
    · simp [Thread.new, hqp]
    · simp [Thread.new, hqp, Ne.symm hqp]
  · have howner : ∃ p ∈ s.processes, p.pid = t.pid := by
      rcases List.mem_append.mp ht with ht | ht
      · exact h.owner t ht
      · obtain ⟨p, hp⟩ := hp
        obtain ⟨hmem, hpid⟩ := h.numbered.get_eq_some.mp hp
        exact ⟨p, hmem, by rw [List.mem_singleton.mp ht]; exact hpid⟩
    obtain ⟨p, hmem, hpid⟩ := howner
    refine ⟨_, List.mem_map_of_mem hmem, ?_⟩
    split_ifs <;> exact hpid

/-- A process without threads has no records, so that terminating it drops none. -/
theorem Inv.filter_eq (h : s.Inv) (hp : ∀ p, s.get pid = some p → p.threads = []) :
    s.threads.filter (fun t ↦ t.pid ≠ pid) = s.threads := by
  refine List.filter_eq_self.mpr fun t ht ↦ decide_eq_true fun hpid ↦ ?_
  obtain ⟨p, hmem, hpt⟩ := h.owner t ht
  have hnil := hp p (h.numbered.get_eq_some.mpr ⟨hmem, hpt.trans hpid⟩)
  rw [h.threads p hmem, List.map_eq_nil_iff, List.filter_eq_nil_iff] at hnil
  exact hnil t ht (decide_eq_true hpt.symm)

theorem Inv.terminate {state : ProcessState} (h : s.Inv)
    (hp : ∀ p, s.get pid = some p → p.threads = []) : (s.terminate pid state).Inv := by
  rw [terminate_eq h.numbered, h.filter_eq hp]
  refine ⟨h.numbered.map (fun p ↦ by split_ifs <;> rfl) _ _, h.tids, h.length, h.nextTid,
    fun p hp ↦ ?_, fun t ht ↦ ?_⟩
  · obtain ⟨q, hq, rfl⟩ := List.mem_map.mp hp
    split_ifs <;> exact h.threads q hq
  · obtain ⟨p, hmem, hpid⟩ := h.owner t ht
    refine ⟨_, List.mem_map_of_mem hmem, ?_⟩
    split_ifs <;> exact hpid

theorem Inv.next (h : s.Inv) (hkept : s.Kept call) (hs' : s.next call = some s') : s'.Inv := by
  cases call with
  | spawn name nowNs => exact h.spawn hs'
  | spawnThread pid => exact h.spawnThread hkept hs'
  | kill pid => exact Option.some.inj hs' ▸ h.terminate hkept
  | exit pid code => exact Option.some.inj hs' ▸ h.terminate hkept

theorem inv_of_reachable (hs : (machine Kept).system.Reachable s) : s.Inv := by
  refine hs.invariant (fun s hinit ↦ ?_) fun s call s' _ h hstep ↦ h.next hstep.1 hstep.2
  rw [show s = new from hinit]
  exact inv_new

theorem exists_get_of_consistent (h : s.Inv) (hs' : s.next (.spawnThread pid) = some s')
    (hc : s'.Consistent) : ∃ p, s.get pid = some p := by
  obtain ⟨-, rfl⟩ := next_spawnThread h.numbered hs'
  obtain ⟨p, hp, hpid, -⟩ := hc.recorded (Thread.new s.nextTid pid)
    (List.mem_append_right _ List.mem_cons_self)
  obtain ⟨q, hq, rfl⟩ := List.mem_map.mp hp
  refine ⟨q, h.numbered.get_eq_some.mpr ⟨hq, ?_⟩⟩
  split_ifs at hpid <;> exact hpid

theorem threads_eq_nil_of_consistent {state : ProcessState} (h : s.Inv)
    (hc : (s.terminate pid state).Consistent) : ∀ p, s.get pid = some p → p.threads = [] := by
  intro p hp
  obtain ⟨hmem, hpid⟩ := h.numbered.get_eq_some.mp hp
  by_contra hne
  obtain ⟨tid, htid⟩ := List.exists_mem_of_ne_nil _ hne
  rw [terminate_eq h.numbered] at hc
  have hmem' := List.mem_map_of_mem
    (f := fun p ↦ if p.pid = pid then { p with state := state } else p) hmem
  rw [if_pos hpid] at hmem'
  obtain ⟨t, ht, htp⟩ := hc.listed _ hmem' tid htid
  have htmem := (List.mem_filter.mp (ht ▸ List.mem_cons_self : t ∈ List.filter _ _)).1
  exact of_decide_eq_true (List.mem_filter.mp htmem).2 (htp.trans hpid)

/-- **The tables agree** in every run in which threads are given to processes that exist and
processes without threads are terminated, and the first call that is not of this kind breaks the
agreement. -/
theorem tables_consistent (hs : (machine Kept).system.Reachable s) :
    s.Consistent ∧ ∀ call s', s.next call = some s' → (s'.Consistent ↔ s.Kept call) := by
  have h := inv_of_reachable hs
  refine ⟨h.consistent, fun call s' hs' ↦ ⟨fun hc ↦ ?_, fun hkept ↦ (h.next hkept hs').consistent⟩⟩
  cases call with
  | spawn name nowNs => trivial
  | spawnThread pid => exact exists_get_of_consistent h hs' hc
  | kill pid =>
    obtain rfl := Option.some.inj hs'
    exact threads_eq_nil_of_consistent h hc
  | exit pid code =>
    obtain rfl := Option.some.inj hs'
    exact threads_eq_nil_of_consistent h hc

/-- A process with a thread next to one that has exited. -/
theorem tables_consistent_exited : ∃ s : ProcessTable,
    (machine Kept).system.Reachable s ∧
      s.processes.map Process.state = [.runnable, .exited 3] ∧ s.threads ≠ [] ∧ s.Consistent := by
  have hspawned : (machine Kept).system.Reachable _ :=
    .step (e := .spawn "init" 0) (.init rfl) ⟨trivial, rfl⟩
  have hthread : (machine Kept).system.Reachable _ :=
    .step (e := .spawnThread 1) hspawned ⟨⟨_, rfl⟩, rfl⟩
  have hsecond : (machine Kept).system.Reachable _ :=
    .step (e := .spawn "sh" 5) hthread ⟨trivial, rfl⟩
  have hexited : (machine Kept).system.Reachable _ :=
    .step (e := .exit 2 3) hsecond ⟨fun p hp ↦ by cases hp; rfl, rfl⟩
  exact ⟨_, hexited, by decide, by decide, (tables_consistent hexited).1⟩

/-- A process that is killed still lists its thread. -/
theorem kill_keeps_listing : ∃ s : ProcessTable,
    (machine fun _ _ ↦ True).system.Reachable s ∧ ¬ s.Consistent := by
  have hspawned : (machine fun _ _ ↦ True).system.Reachable _ :=
    .step (e := .spawn "init" 0) (.init rfl) ⟨trivial, rfl⟩
  have hthread : (machine fun _ _ ↦ True).system.Reachable _ :=
    .step (e := .spawnThread 1) hspawned ⟨trivial, rfl⟩
  have hkilled : (machine fun _ _ ↦ True).system.Reachable _ :=
    .step (e := .kill 1) hthread ⟨trivial, rfl⟩
  refine ⟨_, hkilled, fun hc ↦ ?_⟩
  obtain ⟨t, ht, -⟩ := hc.listed _ List.mem_cons_self 1 List.mem_cons_self
  cases ht

/-! ## Termination -/

theorem get_map {f : Process → Process} (hf : ∀ p, (f p).pid = p.pid) (threads : List Thread)
    (nextPid nextTid : ℕ) :
    get pid ⟨s.processes.map f, threads, nextPid, nextTid⟩ = (s.get pid).map f :=
  Table.lookup_map hf

theorem get_append (hp : s.get pid = some p) (q : Process) (threads : List Thread)
    (nextPid nextTid : ℕ) :
    get pid ⟨s.processes ++ [q], threads, nextPid, nextTid⟩ = some p := by
  refine (Table.lookup_append _ _).trans ?_
  rw [show Table.lookup _ _ _ = _ from hp]
  rfl

theorem Final.trans {t : ProcessTable} (h : s.Final s') (h' : s'.Final t) : s.Final t := by
  intro pid p hp hdead
  obtain ⟨hstate, -⟩ := h pid p hp hdead
  obtain ⟨p', hp', hpp'⟩ := Option.map_eq_some_iff.mp hstate
  have hdead' : p'.Terminated := by rwa [Process.Terminated, hpp']
  have hfinal := h' pid p' hp' hdead'
  rwa [hpp'] at hfinal

/-- Terminating a process leaves the terminated ones as they are exactly when it would not change
the state of its own. -/
theorem final_terminate_iff {state : ProcessState} (h : s.Numbered) (hs : s.Final s) :
    s.Final (s.terminate pid state) ↔ s.Stands pid state := by
  have hget (other : ℕ) : (s.terminate pid state).get other
      = (s.get other).map fun p ↦ if p.pid = pid then { p with state := state } else p := by
    rw [terminate_eq h]
    exact get_map (fun p ↦ by split_ifs <;> rfl) _ _ _
  constructor
  · intro hfinal p hp hdead
    obtain ⟨hstate, -⟩ := hfinal pid p hp hdead
    rw [hget, hp, Option.map_some, if_pos (h.get_eq_some.mp hp).2] at hstate
    exact (Option.some.inj hstate).symm
  · intro hstands other p hp hdead
    refine ⟨?_, fun t ht ↦ ?_⟩
    · rw [hget, hp, Option.map_some, Option.map_some]
      split_ifs with hpid
      · rw [hstands p (h.get_eq_some.mpr ⟨(h.get_eq_some.mp hp).1, hpid⟩) hdead]
      · rfl
    · rw [terminate_eq h] at ht
      exact (hs other p hp hdead).2 t (List.mem_filter.mp ht).1

theorem final_spawn {name : String} {nowNs : ℕ} (hs : s.Final s)
    (hs' : s.next (.spawn name nowNs) = some s') : s.Final s' := by
  obtain ⟨-, rfl⟩ := next_spawn hs'
  intro pid p hp hdead
  rw [get_append hp]
  exact ⟨rfl, (hs pid p hp hdead).2⟩

theorem final_spawnThread_iff (h : s.Numbered) (hs : s.Final s)
    (hs' : s.next (.spawnThread pid) = some s') :
    s.Final s' ↔ ∀ p, s.get pid = some p → ¬ p.Terminated := by
  obtain ⟨-, rfl⟩ := next_spawnThread h hs'
  constructor
  · intro hfinal p hp hdead
    exact (hfinal pid p hp hdead).2 _ (List.mem_append_right _ List.mem_cons_self) rfl
  · intro halive other p hp hdead
    refine ⟨?_, fun t ht ↦ ?_⟩
    · rw [get_map fun p ↦ by split_ifs <;> rfl, hp, Option.map_some, Option.map_some]
      split_ifs <;> rfl
    · rcases List.mem_append.mp ht with ht | ht
      · exact (hs other p hp hdead).2 t ht
      · rw [List.mem_singleton.mp ht]
        rintro rfl
        exact halive p hp hdead

/-- **The exact condition**, for one call. -/
theorem final_next_iff (h : s.Numbered) (hs : s.Final s) (hs' : s.next call = some s') :
    s.Final s' ↔ s.LeavesDead call := by
  cases call with
  | spawn name nowNs => exact iff_of_true (final_spawn hs hs') trivial
  | spawnThread pid => exact final_spawnThread_iff h hs hs'
  | kill pid =>
    obtain rfl := Option.some.inj hs'
    exact final_terminate_iff h hs
  | exit pid code =>
    obtain rfl := Option.some.inj hs'
    exact final_terminate_iff h hs

theorem final_self_terminate {state : ProcessState} (h : s.Numbered) (hs : s.Final s) :
    (s.terminate pid state).Final (s.terminate pid state) := by
  rw [terminate_eq h]
  intro other p hp hdead
  refine ⟨by rw [hp]; rfl, fun t ht ↦ ?_⟩
  obtain ⟨hmem, hne⟩ := List.mem_filter.mp ht
  rw [get_map fun p ↦ by split_ifs <;> rfl] at hp
  obtain ⟨q, hq, rfl⟩ := Option.map_eq_some_iff.mp hp
  have hqpid := (h.get_eq_some.mp hq).2
  split_ifs at hdead with hpid
  · rw [← hqpid, hpid]
    exact of_decide_eq_true hne
  · exact (hs other q hq hdead).2 t hmem

theorem final_self_next (h : s.Numbered) (hs : s.Final s) (hleaves : s.LeavesDead call)
    (hs' : s.next call = some s') : s'.Final s' := by
  have hfinal := (final_next_iff h hs hs').mpr hleaves
  cases call with
  | spawn name nowNs =>
    obtain ⟨-, rfl⟩ := next_spawn hs'
    intro pid p hp hdead
    refine ⟨by rw [hp]; rfl, ?_⟩
    cases hget : s.get pid with
    | some q =>
      rw [get_append hget] at hp
      obtain rfl := Option.some.inj hp
      exact (hs pid q hget hdead).2
    | none =>
      have hmem := Table.mem_of_lookup hp
      rcases List.mem_append.mp hmem with hmem | hmem
      · exact absurd (Table.key_of_lookup hp) (Table.lookup_eq_none.mp hget p hmem)
      · rw [List.mem_singleton.mp hmem] at hdead
        exact absurd hdead (Process.not_terminated rfl)
  | spawnThread pid =>
    obtain ⟨-, rfl⟩ := next_spawnThread h hs'
    intro other p hp hdead
    refine ⟨by rw [hp]; rfl, ?_⟩
    rw [get_map fun p ↦ by split_ifs <;> rfl] at hp
    obtain ⟨q, hq, rfl⟩ := Option.map_eq_some_iff.mp hp
    have hqdead : q.Terminated := by split_ifs at hdead <;> exact hdead
    exact (hfinal other q hq hqdead).2
  | kill pid =>
    obtain rfl := Option.some.inj hs'
    exact final_self_terminate h hs
  | exit pid code =>
    obtain rfl := Option.some.inj hs'
    exact final_self_terminate h hs

/-- **The invariant** while every call leaves the dead alone: no terminated process has a thread. -/
structure Settled (s : ProcessTable) : Prop where
  numbered : s.Numbered
  self : s.Final s

theorem Settled.next (h : s.Settled) (hleaves : s.LeavesDead call) (hs' : s.next call = some s') :
    s'.Settled :=
  ⟨h.numbered.next hs', final_self_next h.numbered h.self hleaves hs'⟩

theorem settled_of_reachable (hs : (machine LeavesDead).system.Reachable s) : s.Settled := by
  refine hs.invariant (fun s hinit ↦ ?_) fun s call s' _ h hstep ↦ h.next hstep.1 hstep.2
  rw [show s = new from hinit]
  exact ⟨numbered_new, nofun⟩

/-- **Termination is final** in every run that gives no thread to a terminated process and
terminates a process again only the way it was. The first call that is not of this kind changes a
terminated process or gives it a thread. -/
theorem termination_final {l : List (ProcessTable × ProcessCall)}
    (hs : (machine LeavesDead).system.Reachable s) (hrun : (machine LeavesDead).system.Run s l s') :
    s.Final s' ∧ ∀ call t, s'.next call = some t → (s'.Final t ↔ s'.LeavesDead call) := by
  have h := settled_of_reachable hs
  obtain ⟨h', hfinal⟩ : s'.Settled ∧ s.Final s' := by
    refine hrun.invariant (P := fun t ↦ t.Settled ∧ s.Final t) (Q := fun _ _ ↦ True)
      (fun _ _ ↦ trivial) ⟨h, h.self⟩ fun s₁ call s₂ ⟨h₁, hfinal⟩ _ hstep ↦ ?_
    refine ⟨h₁.next hstep.1 hstep.2, hfinal.trans ?_⟩
    exact (final_next_iff h₁.numbered h₁.self hstep.2).mpr hstep.1
  exact ⟨hfinal, fun call t ht ↦ final_next_iff h'.numbered h'.self ht⟩

/-- A process exits, another is spawned and gets a thread, and the first is told to exit the same
way once more. -/
theorem termination_final_exited :
    let s : ProcessTable := ⟨[{ Process.new 1 "init" with state := .exited 3 }], [], 2, 1⟩
    ∃ s', s'.processes.map Process.state = [.exited 3, .runnable] ∧ s'.threads ≠ [] ∧
      s.Final s' := by
  intro s
  have hspawned : (machine LeavesDead).system.Reachable _ :=
    .step (e := .spawn "init" 0) (.init rfl) ⟨trivial, rfl⟩
  have hexited : (machine LeavesDead).system.Reachable s :=
    .step (e := .exit 1 3) hspawned
      ⟨fun p hp hdead ↦ absurd hdead (Process.not_terminated (by cases hp; rfl)), rfl⟩
  have hsecond : (machine LeavesDead).system.Run s _ _ :=
    .snoc (e := ProcessCall.spawn "sh" 5) .nil ⟨trivial, rfl⟩
  have hthread : (machine LeavesDead).system.Run _ _ _ :=
    .snoc (e := ProcessCall.spawnThread 2) hsecond
      ⟨fun p hp ↦ Process.not_terminated (by cases hp; rfl), rfl⟩
  have hagain : (machine LeavesDead).system.Run _ _ _ :=
    .snoc (e := ProcessCall.exit 1 3) hthread ⟨fun p hp _ ↦ by cases hp; rfl, rfl⟩
  exact ⟨_, by decide, by decide, (termination_final hexited hagain).1⟩

/-- A process that has exited with one code and is told to exit with another. -/
theorem exit_changes_code : ∃ s s' : ProcessTable,
    (machine fun _ _ ↦ True).system.Reachable s ∧
      (machine fun _ _ ↦ True).system.Run s [(s, .exit 1 4)] s' ∧ ¬ s.Final s' := by
  have hspawned : (machine fun _ _ ↦ True).system.Reachable _ :=
    .step (e := .spawn "init" 0) (.init rfl) ⟨trivial, rfl⟩
  have hexited : (machine fun _ _ ↦ True).system.Reachable _ :=
    .step (e := .exit 1 3) hspawned ⟨trivial, rfl⟩
  refine ⟨_, _, hexited, .snoc .nil ⟨trivial, rfl⟩, fun hfinal ↦ ?_⟩
  obtain ⟨hstate, -⟩ := hfinal 1 _ rfl (.inr ⟨3, rfl⟩)
  exact absurd hstate (by decide)

end ProcessTable

end Zeroxos
