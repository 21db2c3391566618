import Zeroxos.Kernel.Scheduler
import Zeroxos.Library.Transition

/-!
# What the scheduler keeps

The time slice of the running thread is computed with a shift by its level, a division by the number
of ready CFS threads and a search for the thread by its identifier. None of the three is guarded
where it stands: the level of every thread has to be one of the queues, and the running thread has
to be in the table. The operations of the scheduler see to both, whatever the order they are called
in, with identifiers that occur more than once, and when the running thread is removed.

## The invariant

`Bookkeeping` has two parts: levels are those of queues, and the running thread, if there is one, is
in the table. Every call is a change of one thread, a removal or a choice, and for each of the three
there is a lemma. What is promised of the time slice (`QuantumSound`) follows in each of the cases
of `Bookkeeping.running_cases`, with shift and division as checked operations.
-/

namespace Zeroxos

/-- The operations of the scheduler. -/
inductive SchedCall
  | addThread (t : SchedThread)
  | removeThread (id : ThreadId)
  | pickNext (now : ℕ)
  | yieldThread (id : ThreadId)
  | preempt
  | onFrameComplete (renderThread : ThreadId) (now : ℕ)
  | setGamingMode (enabled : Bool) (gamePid : Option ℕ)
  | tick

/-- `a << k`, which panics when `k` is no less than the width of a word. -/
def checkedShl (a k : ℕ) : Option ℕ := if k < 64 then some ((a <<< k) % wordSize) else none

/-- `a / b`, which panics when `b` is 0. -/
def checkedDiv (a b : ℕ) : Option ℕ := if b = 0 then none else some (a / b)

namespace Scheduler

/-- One call. -/
def step (s : Scheduler) : SchedCall → Scheduler
  | .addThread t => s.addThread t
  | .removeThread id => s.removeThread id
  | .pickNext now => (s.pickNext now).2
  | .yieldThread id => s.yieldThread id
  | .preempt => s.preempt
  | .onFrameComplete renderThread now => s.onFrameComplete renderThread now
  | .setGamingMode enabled gamePid => s.setGamingMode enabled gamePid
  | .tick => s.tick

/-- A thread is added at a level there is a queue for. -/
def Legal (_ : Scheduler) : SchedCall → Prop
  | .addThread t => t.mlfqLevel < mlfqLevels
  | _ => True

instance (s : Scheduler) : (call : SchedCall) → Decidable (s.Legal call)
  | .addThread t => inferInstanceAs (Decidable (t.mlfqLevel < mlfqLevels))
  | .removeThread _ | .pickNext _ | .yieldThread _ | .preempt | .onFrameComplete _ _
  | .setGamingMode _ _ | .tick => isTrue trivial

/-- The runs of the scheduler. -/
def machine : Machine Scheduler SchedCall where
  init s := s = Scheduler.new
  Legal := Legal
  next s call := some (s.step call)

instance (s : Scheduler) (call : SchedCall) : Decidable (machine.Legal s call) :=
  inferInstanceAs (Decidable (s.Legal call))

/-- `n_cfs` -/
def readyCfs (s : Scheduler) : ℕ :=
  max (s.threads.countP fun t ↦ t.policy = .cfs ∧ t.state = .ready) 1

/-- `current_quantum_ns`, `none` when its shift or its division panics. -/
def quantumChecked (s : Scheduler) : Option ℕ :=
  match s.current with
  | none => some 0
  | some id =>
    match Table.lookup SchedThread.id id s.threads with
    | none => some 0
    | some t =>
      match t.policy with
      | .realtime _ => some (wordSize - 1)
      | .mlfq => checkedShl mlfqBaseQuantumNs t.mlfqLevel
      | .cfs => (checkedDiv cfsTargetLatencyNs s.readyCfs).map (max · cfsMinGranularityNs)

/-- The thread that runs. -/
def running (s : Scheduler) : Option SchedThread :=
  s.current.bind fun id ↦ Table.lookup SchedThread.id id s.threads

/-- **The invariant.** -/
structure Bookkeeping (s : Scheduler) : Prop where
  level_lt : ∀ t ∈ s.threads, t.mlfqLevel < mlfqLevels
  current_mem : ∀ id ∈ s.current, ∃ t ∈ s.threads, t.id = id

/-- What is promised of the time slice. -/
structure QuantumSound (s : Scheduler) : Prop where
  eq_zero_iff : s.currentQuantumNs = 0 ↔ s.current = none
  /-- Neither the shift nor the division panics. -/
  checked : s.quantumChecked = some s.currentQuantumNs
  /-- Between 1 ms and 8 ms, and no bit is shifted out. -/
  mlfq : ∀ t ∈ s.running, t.policy = .mlfq →
    s.currentQuantumNs = mlfqBaseQuantumNs * 2 ^ t.mlfqLevel ∧
      1000000 ≤ s.currentQuantumNs ∧ s.currentQuantumNs ≤ 8000000
  cfs : ∀ t ∈ s.running, t.policy = .cfs →
    cfsMinGranularityNs ≤ s.currentQuantumNs ∧ s.currentQuantumNs ≤ cfsTargetLatencyNs

variable {s : Scheduler} {t : SchedThread} {id : ThreadId} {now : ℕ} {call : SchedCall}

/-! ## Every call -/

theorem mem_of_pick (h : s.pick now = some t) : t ∈ s.threads := by
  have hpolicy : s.pickByPolicy = some t → t ∈ s.threads := by
    unfold pickByPolicy
    rcases s.bestRt_spec with ⟨hrt, -⟩ | ⟨u, p, hrt, -, hfirst⟩
    · rcases s.bestMlfq_spec with ⟨hmlfq, -⟩ | ⟨u, k, hmlfq, -, hfirst⟩
      · rcases s.bestCfs_spec with ⟨hcfs, -⟩ | ⟨u, v, hcfs, -, hfirst⟩
        · rw [hrt, hmlfq, hcfs]
          nofun
        · rw [hrt, hmlfq, hcfs]
          rintro ⟨⟩
          exact hfirst.mem
      · rw [hrt, hmlfq]
        rintro ⟨⟩
        exact hfirst.mem
    · rw [hrt]
      rintro ⟨⟩
      exact hfirst.mem
  unfold pick at h
  rcases s.bestRtDeadline_spec with ⟨hnone, -⟩ | ⟨u, d, hsome, -, hfirst⟩
  · rw [hnone] at h
    exact hpolicy h
  · rw [hsome] at h
    dsimp only at h
    split_ifs at h
    · cases h
      exact hfirst.mem
    · exact hpolicy h

namespace Bookkeeping

theorem new : Scheduler.new.Bookkeeping := ⟨List.forall_mem_nil _, fun _ h ↦ nomatch h⟩

theorem addThread (h : s.Bookkeeping) (ht : t.mlfqLevel < mlfqLevels) :
    (s.addThread t).Bookkeeping where
  level_lt := List.forall_mem_append.mpr ⟨h.level_lt, List.forall_mem_singleton.mpr ht⟩
  current_mem id hid := by
    obtain ⟨u, hu, hkey⟩ := h.current_mem id hid
    exact ⟨u, List.mem_append_left _ hu, hkey⟩

theorem removeThread (h : s.Bookkeeping) (id : ThreadId) : (s.removeThread id).Bookkeeping where
  level_lt u hu := h.level_lt u (List.mem_of_mem_filter hu)
  current_mem id' hid' := by
    unfold Scheduler.removeThread at hid' ⊢
    dsimp only at hid' ⊢
    split_ifs at hid' with hcurrent
    · cases hid'
    · obtain ⟨u, hu, rfl⟩ := h.current_mem id' hid'
      refine ⟨u, List.mem_filter.mpr ⟨hu, decide_eq_true fun heq ↦ hcurrent ?_⟩, rfl⟩
      exact heq ▸ hid'

theorem pickNext (h : s.Bookkeeping) (now : ℕ) : (s.pickNext now).2.Bookkeeping where
  level_lt := h.level_lt
  current_mem id hid := by
    obtain ⟨t, ht, rfl⟩ := Option.mem_map.mp hid
    exact ⟨t, mem_of_pick ht, rfl⟩

/-- A change of one thread that keeps its identifier and gives it a level there is a queue for. -/
theorem visit (h : s.Bookkeeping) (id : ThreadId) (f : SchedThread → SchedThread)
    (hid : ∀ t, (f t).id = t.id) (hlevel : ∀ t ∈ s.threads, (f t).mlfqLevel < mlfqLevels) :
    Bookkeeping { s with
      threads := (Table.visit SchedThread.id id (fun t ↦ ((), f t)) () s.threads).2 } := by
  have hkeys : (Table.visit SchedThread.id id (fun t ↦ ((), f t)) () s.threads).2.map
      SchedThread.id = s.threads.map SchedThread.id := Table.map_key_visit hid
  constructor
  · exact Table.forall_mem_visit h.level_lt fun t ht ↦ hlevel t (Table.mem_of_lookup ht)
  · intro id' hid'
    obtain ⟨u, hu, rfl⟩ := h.current_mem id' hid'
    exact List.mem_map.mp (hkeys ▸ List.mem_map_of_mem hu)

theorem yieldThread (h : s.Bookkeeping) (id : ThreadId) : (s.yieldThread id).Bookkeeping := by
  have hlevel : ∀ t ∈ s.threads, (yielded t).mlfqLevel < mlfqLevels := by
    intro t ht
    have hlt := h.level_lt t ht
    unfold yielded mlfqLevels at *
    dsimp only
    split_ifs <;> omega
  have hvisit := h.visit id yielded (fun _ ↦ rfl) hlevel
  refine ⟨hvisit.level_lt, fun id' hid' ↦ hvisit.current_mem id' ?_⟩
  unfold Scheduler.yieldThread at hid'
  dsimp only at hid'
  split_ifs at hid'
  · cases hid'
  · exact hid'

theorem preempt (h : s.Bookkeeping) : s.preempt.Bookkeeping := by
  unfold Scheduler.preempt
  split
  · exact h.yieldThread _
  · exact h

theorem onFrameComplete (h : s.Bookkeeping) (renderThread : ThreadId) (now : ℕ) :
    (s.onFrameComplete renderThread now).Bookkeeping := by
  have hlevel : ∀ t ∈ s.threads, (promoted t).mlfqLevel < mlfqLevels :=
    fun _ _ ↦ (by decide : 0 < mlfqLevels)
  have hvisit := h.visit renderThread promoted (fun _ ↦ rfl) hlevel
  exact ⟨hvisit.level_lt, hvisit.current_mem⟩

/-- **Every call** keeps the invariant. -/
theorem step (h : s.Bookkeeping) (hlegal : s.Legal call) : (s.step call).Bookkeeping := by
  cases call with
  | addThread t => exact h.addThread hlegal
  | removeThread id => exact h.removeThread id
  | pickNext now => exact h.pickNext now
  | yieldThread id => exact h.yieldThread id
  | preempt => exact h.preempt
  | onFrameComplete renderThread now => exact h.onFrameComplete renderThread now
  | setGamingMode enabled gamePid => exact ⟨h.level_lt, h.current_mem⟩
  | tick => exact ⟨h.level_lt, h.current_mem⟩

end Bookkeeping

/-! ## The time slice -/

theorem Bookkeeping.running_cases (h : s.Bookkeeping) :
    s.current = none ∨ ∃ id t, s.current = some id ∧
      Table.lookup SchedThread.id id s.threads = some t ∧ s.running = some t ∧ t ∈ s.threads := by
  rcases hcurrent : s.current with _ | id
  · exact .inl rfl
  · obtain ⟨u, hu, hkey⟩ := h.current_mem id hcurrent
    rcases hlook : Table.lookup SchedThread.id id s.threads with _ | t
    · exact absurd hkey (Table.lookup_eq_none.mp hlook u hu)
    · refine .inr ⟨id, t, rfl, hlook, ?_, Table.mem_of_lookup hlook⟩
      rw [running, hcurrent, Option.bind_some, hlook]

theorem shift_level {level : ℕ} (h : level < mlfqLevels) :
    checkedShl mlfqBaseQuantumNs level = some (mlfqBaseQuantumNs * 2 ^ level) ∧
      (mlfqBaseQuantumNs <<< (level % 64)) % wordSize = mlfqBaseQuantumNs * 2 ^ level ∧
      1000000 ≤ mlfqBaseQuantumNs * 2 ^ level ∧ mlfqBaseQuantumNs * 2 ^ level ≤ 8000000 := by
  unfold mlfqLevels at h
  decide +revert

section Running

variable (hcurrent : s.current = some id)
  (hlook : Table.lookup SchedThread.id id s.threads = some t)

include hcurrent hlook

theorem quantum_mlfq (hpolicy : t.policy = .mlfq) (hlevel : t.mlfqLevel < mlfqLevels) :
    s.quantumChecked = some s.currentQuantumNs ∧
      s.currentQuantumNs = mlfqBaseQuantumNs * 2 ^ t.mlfqLevel ∧
      1000000 ≤ s.currentQuantumNs ∧ s.currentQuantumNs ≤ 8000000 := by
  obtain ⟨hshl, hshift, hlo, hhi⟩ := shift_level hlevel
  have hquantum : s.currentQuantumNs = mlfqBaseQuantumNs * 2 ^ t.mlfqLevel := by
    simp only [currentQuantumNs, hcurrent, hlook, hpolicy, hshift]
  have hchecked : s.quantumChecked = some (mlfqBaseQuantumNs * 2 ^ t.mlfqLevel) := by
    simp only [quantumChecked, hcurrent, hlook, hpolicy, hshl]
  exact ⟨hquantum ▸ hchecked, hquantum, hquantum ▸ hlo, hquantum ▸ hhi⟩

/-- The number of ready threads that is divided by is at least one. -/
theorem quantum_cfs (hpolicy : t.policy = .cfs) :
    s.quantumChecked = some s.currentQuantumNs ∧
      cfsMinGranularityNs ≤ s.currentQuantumNs ∧ s.currentQuantumNs ≤ cfsTargetLatencyNs := by
  have hn : 0 < s.readyCfs := lt_max_of_lt_right Nat.one_pos
  have hquantum : s.currentQuantumNs
      = max (cfsTargetLatencyNs / s.readyCfs) cfsMinGranularityNs := by
    simp only [currentQuantumNs, hcurrent, hlook, hpolicy, readyCfs]
  have hchecked : s.quantumChecked
      = (checkedDiv cfsTargetLatencyNs s.readyCfs).map (max · cfsMinGranularityNs) := by
    simp only [quantumChecked, hcurrent, hlook, hpolicy]
  refine ⟨?_, hquantum ▸ le_max_right _ _, ?_⟩
  · rw [hchecked, checkedDiv, if_neg hn.ne', Option.map_some, hquantum]
  · rw [hquantum]
    exact max_le (Nat.div_le_self _ _) (by decide)

theorem quantum_realtime {priority : ℕ} (hpolicy : t.policy = .realtime priority) :
    s.quantumChecked = some s.currentQuantumNs ∧ s.currentQuantumNs = wordSize - 1 := by
  have hquantum : s.currentQuantumNs = wordSize - 1 := by
    simp only [currentQuantumNs, hcurrent, hlook, hpolicy]
  have hchecked : s.quantumChecked = some (wordSize - 1) := by
    simp only [quantumChecked, hcurrent, hlook, hpolicy]
  exact ⟨hquantum ▸ hchecked, hquantum⟩

end Running

theorem quantumSound_of_none (hnone : s.current = none) : s.QuantumSound := by
  have hrunning : ∀ t, t ∉ s.running := by
    intro t ht
    rw [running, hnone] at ht
    cases ht
  have hquantum : s.currentQuantumNs = 0 := by rw [currentQuantumNs, hnone]
  have hchecked : s.quantumChecked = some 0 := by rw [quantumChecked, hnone]
  exact ⟨iff_of_true hquantum hnone, hquantum ▸ hchecked, fun t ht ↦ absurd ht (hrunning t),
    fun t ht ↦ absurd ht (hrunning t)⟩

theorem Bookkeeping.quantumSound (h : s.Bookkeeping) : s.QuantumSound := by
  rcases h.running_cases with hnone | ⟨id, t, hcurrent, hlook, hrunning, ht⟩
  · exact quantumSound_of_none hnone
  have hsome : s.current ≠ none := by rw [hcurrent]; nofun
  -- the fields are about the one thread that runs
  have hone : ∀ {P : SchedThread → Prop}, P t → ∀ u ∈ s.running, P u := by
    intro P hP u hu
    rw [hrunning] at hu
    cases hu
    exact hP
  rcases hpolicy : t.policy with _ | _ | priority
  · obtain ⟨hchecked, hquantum⟩ := quantum_mlfq hcurrent hlook hpolicy (h.level_lt t ht)
    refine ⟨iff_of_false (by omega) hsome, hchecked, hone fun _ ↦ hquantum, hone fun hcfs ↦ ?_⟩
    cases hpolicy.symm.trans hcfs
  · obtain ⟨hchecked, hquantum⟩ := quantum_cfs hcurrent hlook hpolicy
    have hpos : s.currentQuantumNs ≠ 0 := by
      have hlo := hquantum.1
      unfold cfsMinGranularityNs at hlo
      omega
    refine ⟨iff_of_false hpos hsome, hchecked, hone fun hmlfq ↦ ?_, hone fun _ ↦ hquantum⟩
    cases hpolicy.symm.trans hmlfq
  · obtain ⟨hchecked, hquantum⟩ := quantum_realtime hcurrent hlook hpolicy
    have hpos : s.currentQuantumNs ≠ 0 := by
      rw [hquantum]
      decide
    refine ⟨iff_of_false hpos hsome, hchecked, hone fun hmlfq ↦ ?_, hone fun hcfs ↦ ?_⟩
    · cases hpolicy.symm.trans hmlfq
    · cases hpolicy.symm.trans hcfs

end Scheduler

open Scheduler in
/-- **Bookkeeping.** After any sequence of calls every thread has a level there is a queue for, the
running thread is in the table, and its time slice is what it should be and computed without a
panic. -/
theorem scheduler_bookkeeping {s : Scheduler} (hs : machine.system.Reachable s) :
    s.Bookkeeping ∧ s.QuantumSound := by
  have h : s.Bookkeeping := by
    refine hs.invariant (fun s hinit ↦ ?_) fun s call s' _ h ⟨hlegal, hnext⟩ ↦ ?_
    · have hnew : s = Scheduler.new := hinit
      exact hnew ▸ .new
    · obtain rfl := Option.some_inj.mp hnext
      exact h.step hlegal
  exact ⟨h, h.quantumSound⟩

open Scheduler in
/-- Two threads with one identifier, of which the first runs and goes down to the last queue. -/
theorem scheduler_bookkeeping_sameId :
    let s := (machine.run [.addThread { SchedThread.new 1 with mlfqLevel := 2 },
      .addThread { SchedThread.new 1 with policy := .cfs }, .pickNext 0, .preempt, .pickNext 0]
      Scheduler.new).get (by decide)
    s.Bookkeeping ∧ s.QuantumSound :=
  scheduler_bookkeeping (Machine.reachable_run (.init rfl) (Option.some_get _).symm)

end Zeroxos
