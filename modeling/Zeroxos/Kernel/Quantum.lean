import Zeroxos.Kernel.Scheduler
import Zeroxos.Library.Transition

/-!
# Quanta and levels

A thread of the feedback queues is meant to go down a queue when it has used up its quantum. The
scheduler does not know how long a thread has run: nothing ever advances `quantum_used`, and the
timer only counts its own ticks. `yield_thread` moves the thread down whoever calls it and whenever,
so a thread that yields early sinks like one that never yields.

## The account

The system here keeps the time beside the scheduler, and for every thread an account of the quanta
it has really used up; the level it has earned follows from the account alone.

## The condition

The scheduler gives every thread the level it has earned for as long as nobody gives up the
processor early, and the first call that does so from a queue above the last breaks it
(`levels_earned`).
-/

namespace Zeroxos

/-- What a thread has done since it was added, or since it was last promoted. -/
structure Account where
  /-- The level it was added with, or 0 after a promotion. -/
  start : ℕ
  /-- How often it gave up the processor with its quantum used up. -/
  consumed : ℕ
deriving DecidableEq, Repr

/-- The level a thread has earned: one down for each quantum, but never below the last queue. -/
def Account.level (a : Account) : ℕ := max a.start (min (mlfqLevels - 1) (a.start + a.consumed))

/-- The scheduler, and how the processor was used. -/
structure CpuSys where
  scheduler : Scheduler
  /-- How long the processor has run since the last thread was picked. -/
  ranNs : ℕ
  account : ThreadId → Account

/-- The operations of the scheduler, and the processor running. -/
inductive CpuCall
  | pickNext (now : ℕ)
  | run (ns : ℕ)
  | yieldThread (id : ThreadId)
  | preempt
  | tick
  | addThread (t : SchedThread)
  | removeThread (id : ThreadId)
  | setGamingMode (enabled : Bool) (gamePid : Option ℕ)
  | onFrameComplete (renderThread : ThreadId) (now : ℕ)

/-- The quantum of a thread in the feedback queues. -/
def SchedThread.quantumNs (t : SchedThread) : ℕ := mlfqBaseQuantumNs <<< t.mlfqLevel

namespace CpuSys

open Scheduler

/-- The thread with the id. -/
abbrev thread (s : CpuSys) (id : ThreadId) : Option SchedThread :=
  Table.lookup SchedThread.id id s.scheduler.threads

/-- The thread has the processor and has used up its quantum. -/
def Consumed (s : CpuSys) (id : ThreadId) : Prop :=
  s.scheduler.current = some id ∧ ∃ t ∈ s.thread id, t.policy = .mlfq ∧ t.quantumNs ≤ s.ranNs

instance (s : CpuSys) (id : ThreadId) : Decidable (s.Consumed id) :=
  inferInstanceAs (Decidable (_ ∧ _))

/-- The accounts after a thread has given up the processor. -/
def charge (s : CpuSys) (id : ThreadId) : ThreadId → Account :=
  if s.Consumed id then
    Function.update s.account id ⟨(s.account id).start, (s.account id).consumed + 1⟩
  else s.account

/-- One call. -/
def step (s : CpuSys) : CpuCall → CpuSys
  | .pickNext now => { s with scheduler := (s.scheduler.pickNext now).2, ranNs := 0 }
  | .run ns => { s with ranNs := s.ranNs + ns }
  | .yieldThread id =>
    { s with scheduler := s.scheduler.yieldThread id, account := s.charge id }
  | .preempt =>
    { s with
      scheduler := s.scheduler.preempt
      account := s.scheduler.current.elim s.account s.charge }
  | .tick => { s with scheduler := s.scheduler.tick }
  | .addThread t =>
    { s with
      scheduler := s.scheduler.addThread t
      account := if s.thread t.id = none then Function.update s.account t.id ⟨t.mlfqLevel, 0⟩
        else s.account }
  | .removeThread id => { s with scheduler := s.scheduler.removeThread id }
  | .setGamingMode enabled gamePid =>
    { s with scheduler := s.scheduler.setGamingMode enabled gamePid }
  | .onFrameComplete renderThread now =>
    { s with
      scheduler := s.scheduler.onFrameComplete renderThread now
      account := Function.update s.account renderThread ⟨0, 0⟩ }

/-- The thread may give up the processor: it is not in the feedback queues or in the last of them,
or it has used up its quantum. -/
def MayYield (s : CpuSys) (id : ThreadId) : Prop :=
  ∀ t ∈ s.thread id, t.policy = .mlfq → t.mlfqLevel < mlfqLevels - 1 → s.Consumed id

/-- Nobody gives up the processor early. -/
def Legal (s : CpuSys) : CpuCall → Prop
  | .yieldThread id => s.MayYield id
  | .preempt => ∀ id ∈ s.scheduler.current, s.MayYield id
  | _ => True

instance (s : CpuSys) (id : ThreadId) : Decidable (s.MayYield id) :=
  inferInstanceAs (Decidable (∀ t ∈ s.thread id, _))

instance (s : CpuSys) : (call : CpuCall) → Decidable (s.Legal call)
  | .yieldThread id => inferInstanceAs (Decidable (s.MayYield id))
  | .preempt => inferInstanceAs (Decidable (∀ id ∈ s.scheduler.current, s.MayYield id))
  | .pickNext _ | .run _ | .tick | .addThread _ | .removeThread _ | .setGamingMode _ _
  | .onFrameComplete _ _ => isTrue trivial

/-- The runs in which nobody gives up the processor early, from any scheduler. -/
def machine : Machine CpuSys CpuCall where
  init s := ∀ id, ∀ t ∈ s.thread id, s.account id = ⟨t.mlfqLevel, 0⟩
  Legal := Legal
  next s call := some (s.step call)

instance (s : CpuSys) (call : CpuCall) : Decidable (machine.Legal s call) :=
  inferInstanceAs (Decidable (s.Legal call))

/-- Every thread of the feedback queues is at the level it has earned. -/
def Earned (s : CpuSys) : Prop :=
  ∀ id, ∀ t ∈ s.thread id, t.policy = .mlfq → t.mlfqLevel = (s.account id).level

/-! ## The threads after a call -/

section Threads

variable {s : Scheduler} {id id' : ThreadId}

theorem lookup_yieldThread :
    Table.lookup SchedThread.id id' (s.yieldThread id).threads =
      if id' = id then (Table.lookup SchedThread.id id s.threads).map yielded
      else Table.lookup SchedThread.id id' s.threads :=
  Table.lookup_visit fun _ ↦ rfl

theorem lookup_onFrameComplete {now : ℕ} :
    Table.lookup SchedThread.id id' (s.onFrameComplete id now).threads =
      if id' = id then (Table.lookup SchedThread.id id s.threads).map promoted
      else Table.lookup SchedThread.id id' s.threads :=
  Table.lookup_visit fun _ ↦ rfl

theorem lookup_addThread {t : SchedThread} :
    Table.lookup SchedThread.id id' (s.addThread t).threads =
      (Table.lookup SchedThread.id id' s.threads).or (if t.id = id' then some t else none) := by
  rw [addThread, Table.lookup_append, Table.lookup_cons, Table.lookup_nil]

theorem lookup_removeThread :
    Table.lookup SchedThread.id id' (s.removeThread id).threads =
      if id' = id then none else Table.lookup SchedThread.id id' s.threads :=
  Table.lookup_filter_ne

end Threads

/-! ## Giving up the processor -/

variable {s : CpuSys} {id : ThreadId} {t : SchedThread}

theorem currentQuantumNs_eq (hcurrent : s.scheduler.current = some id) (ht : t ∈ s.thread id)
    (hpolicy : t.policy = .mlfq) (hlevel : t.mlfqLevel < mlfqLevels) :
    s.scheduler.currentQuantumNs = t.quantumNs := by
  have hlook : Table.lookup SchedThread.id id s.scheduler.threads = some t := ht
  rw [currentQuantumNs, hcurrent]
  dsimp only
  rw [hlook]
  dsimp only
  rw [hpolicy]
  dsimp only
  unfold mlfqLevels at hlevel
  unfold SchedThread.quantumNs
  generalize t.mlfqLevel = l at hlevel ⊢
  decide +revert

theorem level_new (l : ℕ) : Account.level ⟨l, 0⟩ = l := by
  unfold Account.level
  dsimp only
  omega

theorem level_consumed (a : Account) : Account.level ⟨a.start, a.consumed + 1⟩ =
    if a.level < mlfqLevels - 1 then a.level + 1 else a.level := by
  unfold Account.level mlfqLevels
  dsimp only
  split_ifs <;> omega

theorem yielded_level (hpolicy : t.policy = .mlfq) : (yielded t).mlfqLevel =
    if t.mlfqLevel < mlfqLevels - 1 then t.mlfqLevel + 1 else t.mlfqLevel := by
  simp only [yielded, hpolicy, true_and]

theorem charge_self : s.charge id id =
    if s.Consumed id then ⟨(s.account id).start, (s.account id).consumed + 1⟩
    else s.account id := by
  rw [charge]
  split_ifs
  · exact Function.update_self ..
  · rfl

theorem charge_of_ne {id' : ThreadId} (hne : id' ≠ id) : s.charge id id' = s.account id' := by
  rw [charge]
  split_ifs
  · exact Function.update_of_ne hne ..
  · rfl

/-- The level the scheduler gives a thread that yields is the one it has earned, exactly when it
did not yield early. -/
theorem yielded_level_eq_iff (hpolicy : t.policy = .mlfq)
    (hlevel : t.mlfqLevel = (s.account id).level) :
    (yielded t).mlfqLevel = (s.charge id id).level ↔
      (t.mlfqLevel < mlfqLevels - 1 → s.Consumed id) := by
  rw [yielded_level hpolicy, charge_self]
  by_cases hconsumed : s.Consumed id
  · rw [if_pos hconsumed, level_consumed, hlevel]
    exact iff_of_true rfl fun _ ↦ hconsumed
  · rw [if_neg hconsumed, hlevel]
    split_ifs with hlast
    · exact iff_of_false (Nat.succ_ne_self _) fun h ↦ hconsumed (h hlast)
    · exact iff_of_true rfl fun h ↦ absurd h hlast

theorem earned_yieldThread_iff (h : s.Earned) (id : ThreadId) :
    (s.step (.yieldThread id)).Earned ↔ s.MayYield id := by
  constructor
  · intro h' t ht hpolicy
    refine (yielded_level_eq_iff hpolicy (h id t ht hpolicy)).mp (h' id (yielded t) ?_ hpolicy)
    change yielded t ∈ Table.lookup SchedThread.id id (s.scheduler.yieldThread id).threads
    rw [lookup_yieldThread, if_pos rfl]
    exact Option.mem_map_of_mem yielded ht
  · intro hmay id' t ht hpolicy
    change t ∈ Table.lookup SchedThread.id id' (s.scheduler.yieldThread id).threads at ht
    rw [lookup_yieldThread] at ht
    change t.mlfqLevel = (s.charge id id').level
    split_ifs at ht with hid
    · obtain ⟨u, hu, rfl⟩ := Option.mem_map.mp ht
      subst hid
      have hmlfq : u.policy = .mlfq := hpolicy
      exact (yielded_level_eq_iff hmlfq (h id' u hu hmlfq)).mpr (hmay u hu hmlfq)
    · rw [charge_of_ne hid]
      exact h id' t ht hpolicy

theorem earned_preempt_iff (h : s.Earned) :
    (s.step .preempt).Earned ↔ ∀ id ∈ s.scheduler.current, s.MayYield id := by
  rcases hcurrent : s.scheduler.current with _ | id
  · have hstep : s.step .preempt = s := by
      simp only [step, Scheduler.preempt, hcurrent, Option.elim_none]
    rw [hstep]
    exact iff_of_true h fun _ hid ↦ absurd hid (Option.not_mem_none _)
  · have hstep : s.step .preempt = s.step (.yieldThread id) := by
      simp only [step, Scheduler.preempt, hcurrent, Option.elim_some]
    rw [hstep, earned_yieldThread_iff h]
    simp

/-! ## The other calls -/

theorem earned_addThread (h : s.Earned) (t : SchedThread) : (s.step (.addThread t)).Earned := by
  intro id u hu hpolicy
  change u ∈ Table.lookup SchedThread.id id (s.scheduler.addThread t).threads at hu
  rw [lookup_addThread] at hu
  change u ∈ (s.thread id).or (if t.id = id then some t else none) at hu
  change u.mlfqLevel = Account.level ((if s.thread t.id = none then
    Function.update s.account t.id ⟨t.mlfqLevel, 0⟩ else s.account) id)
  rcases hlook : s.thread id with _ | v
  · -- a new thread has the level it was added with
    rw [hlook, Option.none_or] at hu
    split_ifs at hu with hid
    · obtain rfl : t = u := Option.some_inj.mp hu
      subst hid
      rw [if_pos hlook, Function.update_self, level_new]
    · cases hu
  · rw [hlook, Option.some_or] at hu
    obtain rfl : v = u := Option.some_inj.mp hu
    have haccount : (if s.thread t.id = none then
        Function.update s.account t.id ⟨t.mlfqLevel, 0⟩ else s.account) id = s.account id := by
      split_ifs with hnew
      · refine Function.update_of_ne ?_ ..
        rintro rfl
        rw [hlook] at hnew
        cases hnew
      · rfl
    rw [haccount]
    exact h id v hlook hpolicy

theorem earned_removeThread (h : s.Earned) (id : ThreadId) :
    (s.step (.removeThread id)).Earned := by
  intro id' t ht hpolicy
  change t ∈ Table.lookup SchedThread.id id' (s.scheduler.removeThread id).threads at ht
  rw [lookup_removeThread] at ht
  split_ifs at ht
  · cases ht
  · exact h id' t ht hpolicy

theorem earned_onFrameComplete (h : s.Earned) (id : ThreadId) (now : ℕ) :
    (s.step (.onFrameComplete id now)).Earned := by
  intro id' t ht hpolicy
  change t ∈ Table.lookup SchedThread.id id' (s.scheduler.onFrameComplete id now).threads at ht
  rw [lookup_onFrameComplete] at ht
  change t.mlfqLevel = (Function.update s.account id ⟨0, 0⟩ id').level
  split_ifs at ht with hid
  · obtain ⟨u, hu, rfl⟩ := Option.mem_map.mp ht
    rw [hid, Function.update_self]
    rfl
  · rw [Function.update_of_ne hid]
    exact h id' t ht hpolicy

/-- **A call keeps the levels as they are earned** exactly when it is legal. -/
theorem earned_step_iff (h : s.Earned) (call : CpuCall) :
    (s.step call).Earned ↔ s.Legal call := by
  cases call with
  | yieldThread id => exact earned_yieldThread_iff h id
  | preempt => exact earned_preempt_iff h
  | addThread t => exact iff_of_true (earned_addThread h t) trivial
  | removeThread id => exact iff_of_true (earned_removeThread h id) trivial
  | onFrameComplete id now => exact iff_of_true (earned_onFrameComplete h id now) trivial
  | pickNext now => exact iff_of_true h trivial
  | run ns => exact iff_of_true h trivial
  | tick => exact iff_of_true h trivial
  | setGamingMode enabled gamePid => exact iff_of_true h trivial

theorem earned_of_init (h : machine.init s) : s.Earned := by
  intro id t ht _
  rw [h id t ht, level_new]

end CpuSys

open CpuSys in
/-- **Levels are earned as long as nobody yields early.** In every run in which each thread of the
feedback queues above the last that gives up the processor has it and has used up its quantum, every
thread is at the level that its account says; and a call that is not of this kind breaks it. -/
theorem levels_earned {s : CpuSys} (hs : machine.system.Reachable s) :
    s.Earned ∧ ∀ call, (s.step call).Earned ↔ s.Legal call := by
  have hearned : s.Earned := by
    refine hs.invariant (fun s h ↦ earned_of_init h) ?_
    rintro s call s' - h ⟨hlegal, hnext⟩
    obtain rfl := Option.some_inj.mp hnext
    exact (earned_step_iff h call).mpr hlegal
  exact ⟨hearned, earned_step_iff hearned⟩

/-! ## One thread -/

namespace CpuSys

/-- A scheduler without threads. -/
def idle : CpuSys := ⟨Scheduler.new, 0, fun _ ↦ ⟨0, 0⟩⟩

theorem idle_init : machine.init idle := by
  intro id t ht
  cases ht

/-- Picked, and given up after a microsecond. -/
def earlyTurn : List CpuCall := [.pickNext 0, .run 1000, .yieldThread 1]

end CpuSys

open CpuSys in
/-- A thread that is preempted at the end of its quantum. -/
theorem levels_earned_preempt :
    let s := (machine.run [.addThread (SchedThread.new 1), .pickNext 0, .run 1000000, .preempt]
      idle).get (by decide)
    s.Earned ∧ ∀ call, (s.step call).Earned ↔ s.Legal call :=
  levels_earned (Machine.reachable_run (.init idle_init) (Option.some_get _).symm)

open CpuSys in
/-- **A thread that yields early sinks.** After three turns of a microsecond it is in the last
queue, with no quantum used up. -/
theorem early_yields_sink :
    let s := (CpuCall.addThread (SchedThread.new 1) :: (earlyTurn ++ earlyTurn ++ earlyTurn)).foldl
      CpuSys.step idle
    (s.thread 1).map SchedThread.mlfqLevel = some 3 ∧ s.account 1 = ⟨0, 0⟩ ∧ ¬s.Earned := by
  refine ⟨by decide, by decide, fun h ↦ ?_⟩
  have hlevel := h 1 { SchedThread.new 1 with mlfqLevel := 3 } (by decide) rfl
  exact absurd hlevel (by decide)

end Zeroxos
