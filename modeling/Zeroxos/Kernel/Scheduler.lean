import Zeroxos.Library.Rust
import Zeroxos.Library.Select
import Zeroxos.Library.Table

/-!
# The scheduler

`Scheduler` keeps its threads in the order they were added and looks through all of them to pick the
next one: four loops, one for each step of the documented selection order, each with its own idea of
a candidate and of a better candidate. The clock is an argument of `pick_next`.

## The loops

Each loop is `firstBest` with a key, which is `none` for a thread that is no candidate, and a strict
comparison. Ties go to the thread added first because no comparison is weak (`loop_spec`). The
horizon of an imminent deadline is a sum of words and wraps, and priorities are clamped.

## The selection order

Taken together the four loops are one order on the ready threads; the last section says so without
mentioning a loop (`pickNext_selects`). It holds in every state, whatever the threads and the clock.
-/

namespace Zeroxos

abbrev ThreadId := ℕ

inductive Policy
  | mlfq
  | cfs
  | realtime (priority : ℕ)
deriving DecidableEq, Repr

/-- `Priority`: an `i8`. -/
abbrev Priority := ℤ

namespace Priority

def normal : Priority := 0

def gamingForeground : Priority := 20

/-- `Priority::boost`: `saturating_add` on `i8`, then `clamp`. -/
def boost (p : Priority) (delta : ℤ) : Priority :=
  max (-20) (min 20 (max (-128) (min 127 (p + delta))))

end Priority

inductive ThreadState
  | ready
  | running
  | blocked
  | sleeping (untilNs : ℕ)
  | exited
deriving DecidableEq, Repr

structure SchedThread where
  id : ThreadId
  policy : Policy
  priority : Priority
  state : ThreadState
  cpuAffinity : ℕ
  pinnedCpu : Option ℕ
  vruntime : ℕ
  quantumUsed : ℕ
  mlfqLevel : ℕ
  frameDeadlineNs : Option ℕ
  isGameRender : Bool
  isGamePhysics : Bool
  isGameAudio : Bool
  lastRunNs : ℕ
  totalRunNs : ℕ
deriving DecidableEq, Repr

def SchedThread.new (id : ThreadId) : SchedThread where
  id := id
  policy := .mlfq
  priority := Priority.normal
  state := .ready
  cpuAffinity := wnot 0
  pinnedCpu := none
  vruntime := 0
  quantumUsed := 0
  mlfqLevel := 0
  frameDeadlineNs := none
  isGameRender := false
  isGamePhysics := false
  isGameAudio := false
  lastRunNs := 0
  totalRunNs := 0

def mlfqLevels : ℕ := 4

/-- `MLFQ_BASE_QUANTUM_NS`: 1 ms. -/
def mlfqBaseQuantumNs : ℕ := 1000000

/-- `CFS_TARGET_LATENCY_NS`: 6 ms. -/
def cfsTargetLatencyNs : ℕ := 6000000

/-- `CFS_MIN_GRANULARITY_NS`: 0.75 ms. -/
def cfsMinGranularityNs : ℕ := 750000

structure Scheduler where
  threads : List SchedThread
  current : Option ThreadId
  gamingMode : Bool
  foregroundGame : Option ℕ
  tickCount : ℕ
  lastFrameCompleteNs : ℕ
deriving DecidableEq, Repr

namespace Scheduler

def new : Scheduler := ⟨[], none, false, none, 0, 0⟩

/-! ## `pick_next` -/

/-- What the first loop looks at: the frame deadline of a ready realtime thread. -/
def deadlineKey (t : SchedThread) : Option ℕ :=
  if t.state = .ready then
    match t.policy with
    | .realtime _ => t.frameDeadlineNs
    | _ => none
  else none

def bestRtDeadline (s : Scheduler) : Option (SchedThread × ℕ) :=
  firstBest deadlineKey (fun deadline d ↦ deadline < d) s.threads

/-- What the second loop looks at: the priority of a ready realtime thread. -/
def rtKey (t : SchedThread) : Option ℕ :=
  if t.state = .ready then
    match t.policy with
    | .realtime priority => some priority
    | _ => none
  else none

def bestRt (s : Scheduler) : Option (SchedThread × ℕ) :=
  firstBest rtKey (fun priority p ↦ priority > p) s.threads

/-- The priority the third loop uses. -/
def effectivePriority (s : Scheduler) (t : SchedThread) : ℤ :=
  if s.gamingMode then
    if t.isGameRender || t.isGamePhysics || t.isGameAudio then t.priority.boost 20
    else t.priority.boost (-10)
  else t.priority

/-- What the third loop looks at: the queue and the priority of a ready MLFQ thread. -/
def mlfqKey (s : Scheduler) (t : SchedThread) : Option (ℕ × ℤ) :=
  if t.state = .ready then
    if t.policy = .mlfq then some (t.mlfqLevel, s.effectivePriority t) else none
  else none

def bestMlfq (s : Scheduler) : Option (SchedThread × ℕ × ℤ) :=
  firstBest s.mlfqKey (fun b best ↦ b.1 < best.1 || (b.1 = best.1 && b.2 > best.2)) s.threads

/-- What the fourth loop looks at: the virtual runtime of a ready CFS thread. -/
def cfsKey (t : SchedThread) : Option ℕ :=
  if t.state = .ready then if t.policy = .cfs then some t.vruntime else none else none

def bestCfs (s : Scheduler) : Option (SchedThread × ℕ) :=
  firstBest cfsKey (fun vruntime v ↦ vruntime < v) s.threads

/-- The thread picked when no deadline is imminent. -/
def pickByPolicy (s : Scheduler) : Option SchedThread :=
  match s.bestRt with
  | some (t, _) => some t
  | none =>
    match s.bestMlfq with
    | some (t, _) => some t
    | none => s.bestCfs.map Prod.fst

/-- The thread picked when the clock shows `now`. -/
def pick (now : ℕ) (s : Scheduler) : Option SchedThread :=
  match s.bestRtDeadline with
  | some (t, deadline) => if deadline ≤ wadd now 1000000 then some t else s.pickByPolicy
  | none => s.pickByPolicy

def pickNext (now : ℕ) (s : Scheduler) : Option ThreadId × Scheduler :=
  ((s.pick now).map SchedThread.id, { s with current := (s.pick now).map SchedThread.id })

/-! ## `yield_thread` and `preempt` -/

/-- What `yield_thread` does to the thread: an MLFQ thread goes down a queue. -/
def yielded (t : SchedThread) : SchedThread :=
  { t with
    state := .ready
    mlfqLevel :=
      if t.policy = .mlfq ∧ t.mlfqLevel < mlfqLevels - 1 then t.mlfqLevel + 1 else t.mlfqLevel
    quantumUsed := 0 }

def yieldThread (id : ThreadId) (s : Scheduler) : Scheduler :=
  { s with
    threads := (Table.visit SchedThread.id id (fun t ↦ ((), yielded t)) () s.threads).2
    current := if s.current = some id then none else s.current }

def preempt (s : Scheduler) : Scheduler :=
  match s.current with
  | some id => s.yieldThread id
  | none => s

def currentQuantumNs (s : Scheduler) : ℕ :=
  match s.current with
  | none => 0
  | some id =>
    match Table.lookup SchedThread.id id s.threads with
    | none => 0
    | some t =>
      match t.policy with
      | .realtime _ => wordSize - 1
      | .mlfq => (mlfqBaseQuantumNs <<< (t.mlfqLevel % 64)) % wordSize
      | .cfs =>
        let n := max (s.threads.countP fun t ↦ t.policy = .cfs ∧ t.state = .ready) 1
        max (cfsTargetLatencyNs / n) cfsMinGranularityNs

/-! ## The other operations -/

def addThread (t : SchedThread) (s : Scheduler) : Scheduler :=
  { s with threads := s.threads ++ [t] }

def removeThread (id : ThreadId) (s : Scheduler) : Scheduler :=
  { s with
    threads := s.threads.filter fun t ↦ t.id ≠ id
    current := if s.current = some id then none else s.current }

def setGamingMode (enabled : Bool) (gamePid : Option ℕ) (s : Scheduler) : Scheduler :=
  { s with gamingMode := enabled, foregroundGame := gamePid }

def tick (s : Scheduler) : Scheduler := { s with tickCount := wadd s.tickCount 1 }

/-- What `on_frame_complete` does to the render thread. -/
def promoted (t : SchedThread) : SchedThread :=
  { t with mlfqLevel := 0, priority := Priority.gamingForeground }

/-- `Scheduler::on_frame_complete`, when the clock shows `now`. -/
def onFrameComplete (renderThread : ThreadId) (now : ℕ) (s : Scheduler) : Scheduler :=
  { s with
    threads := (Table.visit SchedThread.id renderThread (fun t ↦ ((), promoted t)) () s.threads).2
    lastFrameCompleteNs := now }

/-! ## The selection order -/

/-- A thread that is ready and realtime. -/
def ReadyRt (t : SchedThread) : Prop := t.state = .ready ∧ ∃ priority, t.policy = .realtime priority

/-- A thread that is ready, realtime and has a frame deadline. -/
def ReadyDeadline (t : SchedThread) : Prop :=
  ReadyRt t ∧ ∃ deadline, t.frameDeadlineNs = some deadline

/-- A thread that is ready and in the feedback queues. -/
def ReadyMlfq (t : SchedThread) : Prop := t.state = .ready ∧ t.policy = .mlfq

/-- A thread that is ready and fairly scheduled. -/
def ReadyCfs (t : SchedThread) : Prop := t.state = .ready ∧ t.policy = .cfs

/-- `t` is a candidate, no candidate is better, and every candidate added before it is worse. -/
def First (cand : SchedThread → Prop) (better : SchedThread → SchedThread → Prop)
    (threads : List SchedThread) (t : SchedThread) : Prop :=
  cand t ∧ ∃ before after, threads = before ++ t :: after
    ∧ (∀ u ∈ before, cand u → better t u) ∧ ∀ u ∈ after, cand u → ¬better u t

/-- The frame deadline of `t` is earlier. -/
def EarlierDeadline (t u : SchedThread) : Prop :=
  ∃ d ∈ t.frameDeadlineNs, ∃ d' ∈ u.frameDeadlineNs, d < d'

/-- The realtime priority of `t` is higher. -/
def HigherRt (t u : SchedThread) : Prop :=
  ∃ p q, t.policy = .realtime p ∧ u.policy = .realtime q ∧ q < p

/-- `t` is in a higher queue, or in the same one with a higher effective priority. -/
def HigherMlfq (s : Scheduler) (t u : SchedThread) : Prop :=
  t.mlfqLevel < u.mlfqLevel
    ∨ (t.mlfqLevel = u.mlfqLevel ∧ s.effectivePriority u < s.effectivePriority t)

/-- Some ready realtime thread has to finish its frame within a millisecond. -/
def DeadlineDue (s : Scheduler) (now : ℕ) : Prop :=
  ∃ t ∈ s.threads, ReadyRt t ∧ ∃ deadline ∈ t.frameDeadlineNs, deadline ≤ now + 1000000

/-- **The documented selection order.** -/
def Selects (s : Scheduler) (now : ℕ) (t : SchedThread) : Prop :=
  (s.DeadlineDue now ∧ First ReadyDeadline EarlierDeadline s.threads t)
  ∨ (¬s.DeadlineDue now ∧ First ReadyRt HigherRt s.threads t)
  ∨ (¬s.DeadlineDue now ∧ (∀ u ∈ s.threads, ¬ReadyRt u)
      ∧ First ReadyMlfq s.HigherMlfq s.threads t)
  ∨ (¬s.DeadlineDue now ∧ (∀ u ∈ s.threads, ¬ReadyRt u) ∧ (∀ u ∈ s.threads, ¬ReadyMlfq u)
      ∧ First ReadyCfs (fun t u ↦ t.vruntime < u.vruntime) s.threads t)

private theorem first_of_isFirstBest {κ : Type*} {key : SchedThread → Option κ}
    {betterKey : κ → κ → Bool} {cand : SchedThread → Prop}
    {better : SchedThread → SchedThread → Prop} {threads : List SchedThread} {t : SchedThread}
    {k : κ} (hcand : ∀ t, cand t ↔ ∃ k, key t = some k)
    (hbetter : ∀ t u k k', key t = some k → key u = some k' →
      (better t u ↔ betterKey k k' = true))
    (h : IsFirstBest key betterKey threads t k) : First cand better threads t := by
  obtain ⟨hkey, before, after, rfl, hbefore, hafter⟩ := h
  refine ⟨(hcand t).mpr ⟨k, hkey⟩, before, after, rfl, fun u hu hc ↦ ?_, fun u hu hc ↦ ?_⟩
  · obtain ⟨k', hk'⟩ := (hcand u).mp hc
    exact (hbetter t u k k' hkey hk').mpr (hbefore u hu k' hk')
  · obtain ⟨k', hk'⟩ := (hcand u).mp hc
    rw [hbetter u t k' k hk' hkey, hafter u hu k' hk']
    exact Bool.false_ne_true

/-- A loop finds the first of its best candidates, or there is no candidate. -/
private theorem loop_spec {κ : Type*} {key : SchedThread → Option κ} {betterKey : κ → κ → Bool}
    {cand : SchedThread → Prop} {better : SchedThread → SchedThread → Prop}
    (threads : List SchedThread)
    (hasymm : ∀ a b, betterKey a b = true → betterKey b a = false)
    (hcotrans : ∀ a b c, betterKey a b = true → betterKey a c = true ∨ betterKey c b = true)
    (hcand : ∀ t, cand t ↔ ∃ k, key t = some k)
    (hbetter : ∀ t u k k', key t = some k → key u = some k' →
      (better t u ↔ betterKey k k' = true)) :
    (firstBest key betterKey threads = none ∧ ∀ t ∈ threads, ¬cand t)
      ∨ ∃ t k, firstBest key betterKey threads = some (t, k) ∧ key t = some k
        ∧ First cand better threads t := by
  rcases firstBest_spec hasymm hcotrans threads with ⟨hnone, hall⟩ | ⟨t, k, hsome, hbest⟩
  · refine .inl ⟨hnone, fun t ht hc ↦ ?_⟩
    obtain ⟨k, hk⟩ := (hcand t).mp hc
    rw [hall t ht] at hk
    cases hk
  · exact .inr ⟨t, k, hsome, hbest.1, first_of_isFirstBest hcand hbetter hbest⟩

theorem deadlineKey_eq_some {t : SchedThread} {d : ℕ} :
    deadlineKey t = some d ↔ ReadyRt t ∧ t.frameDeadlineNs = some d := by
  unfold deadlineKey ReadyRt
  by_cases hstate : t.state = .ready
  · cases hpolicy : t.policy <;> simp [hstate]
  · simp [hstate]

theorem rtKey_eq_some {t : SchedThread} {p : ℕ} :
    rtKey t = some p ↔ t.state = .ready ∧ t.policy = .realtime p := by
  unfold rtKey
  by_cases hstate : t.state = .ready
  · cases hpolicy : t.policy <;> simp [hstate]
  · simp [hstate]

theorem mlfqKey_eq_some {s : Scheduler} {t : SchedThread} {k : ℕ × ℤ} :
    s.mlfqKey t = some k ↔ ReadyMlfq t ∧ (t.mlfqLevel, s.effectivePriority t) = k := by
  unfold mlfqKey ReadyMlfq
  by_cases hstate : t.state = .ready
  · by_cases hpolicy : t.policy = .mlfq <;> simp [hstate, hpolicy]
  · simp [hstate]

theorem cfsKey_eq_some {t : SchedThread} {v : ℕ} :
    cfsKey t = some v ↔ ReadyCfs t ∧ t.vruntime = v := by
  unfold cfsKey ReadyCfs
  by_cases hstate : t.state = .ready
  · by_cases hpolicy : t.policy = .cfs <;> simp [hstate, hpolicy]
  · simp [hstate]

theorem bestRtDeadline_spec (s : Scheduler) :
    (s.bestRtDeadline = none ∧ ∀ t ∈ s.threads, ¬ReadyDeadline t)
      ∨ ∃ t d, s.bestRtDeadline = some (t, d) ∧ deadlineKey t = some d
        ∧ First ReadyDeadline EarlierDeadline s.threads t := by
  refine loop_spec s.threads decide_lt_asymm decide_lt_cotrans (fun t ↦ ?_)
    fun t u d d' hd hd' ↦ ?_
  · simp only [deadlineKey_eq_some, ReadyDeadline, exists_and_left]
  · have ht := (deadlineKey_eq_some.mp hd).2
    have hu := (deadlineKey_eq_some.mp hd').2
    simp [EarlierDeadline, ht, hu]

theorem bestRt_spec (s : Scheduler) :
    (s.bestRt = none ∧ ∀ t ∈ s.threads, ¬ReadyRt t)
      ∨ ∃ t p, s.bestRt = some (t, p) ∧ rtKey t = some p
        ∧ First ReadyRt HigherRt s.threads t := by
  refine loop_spec s.threads (fun a b ↦ decide_lt_asymm b a)
    (fun a b c h ↦ (decide_lt_cotrans b a c h).symm) (fun t ↦ ?_) fun t u p q hp hq ↦ ?_
  · simp only [rtKey_eq_some, ReadyRt, exists_and_left]
  · have ht := (rtKey_eq_some.mp hp).2
    have hu := (rtKey_eq_some.mp hq).2
    simp [HigherRt, ht, hu]

theorem bestMlfq_spec (s : Scheduler) :
    (s.bestMlfq = none ∧ ∀ t ∈ s.threads, ¬ReadyMlfq t)
      ∨ ∃ t k, s.bestMlfq = some (t, k) ∧ s.mlfqKey t = some k
        ∧ First ReadyMlfq s.HigherMlfq s.threads t := by
  refine loop_spec s.threads ?_ ?_ (fun t ↦ ?_) fun t u k k' hk hk' ↦ ?_
  · rintro ⟨l, p⟩ ⟨l', p'⟩ h
    simp only [Bool.or_eq_true, Bool.and_eq_true, decide_eq_true_eq, Bool.or_eq_false_iff,
      Bool.and_eq_false_iff, decide_eq_false_iff_not] at h ⊢
    omega
  · rintro ⟨l, p⟩ ⟨l', p'⟩ ⟨l'', p''⟩ h
    simp only [Bool.or_eq_true, Bool.and_eq_true, decide_eq_true_eq] at h ⊢
    omega
  · simp [mlfqKey_eq_some]
  · obtain ⟨-, rfl⟩ := mlfqKey_eq_some.mp hk
    obtain ⟨-, rfl⟩ := mlfqKey_eq_some.mp hk'
    simp [HigherMlfq]

theorem bestCfs_spec (s : Scheduler) :
    (s.bestCfs = none ∧ ∀ t ∈ s.threads, ¬ReadyCfs t)
      ∨ ∃ t v, s.bestCfs = some (t, v) ∧ cfsKey t = some v
        ∧ First ReadyCfs (fun t u ↦ t.vruntime < u.vruntime) s.threads t := by
  refine loop_spec s.threads decide_lt_asymm decide_lt_cotrans (fun t ↦ ?_)
    fun t u v v' hv hv' ↦ ?_
  · simp [cfsKey_eq_some]
  · obtain ⟨-, rfl⟩ := cfsKey_eq_some.mp hv
    obtain ⟨-, rfl⟩ := cfsKey_eq_some.mp hv'
    simp

theorem First.mem {cand : SchedThread → Prop} {better : SchedThread → SchedThread → Prop}
    {threads : List SchedThread} {t : SchedThread} (h : First cand better threads t) :
    t ∈ threads := by
  obtain ⟨-, before, after, rfl, -⟩ := h
  exact List.mem_append_right _ List.mem_cons_self

private theorem First.deadline_le {threads : List SchedThread} {t u : SchedThread} {d d' : ℕ}
    (h : First ReadyDeadline EarlierDeadline threads t) (hd : t.frameDeadlineNs = some d)
    (hu : u ∈ threads) (hrt : ReadyRt u) (hd' : u.frameDeadlineNs = some d') : d ≤ d' := by
  obtain ⟨-, before, after, rfl, hbefore, hafter⟩ := h
  rcases List.mem_append.mp hu with hu | hu
  · obtain ⟨e, he, e', he', hlt⟩ := hbefore u hu ⟨hrt, d', hd'⟩
    rw [hd] at he
    rw [hd'] at he'
    cases he
    cases he'
    exact hlt.le
  rcases List.mem_cons.mp hu with rfl | hu
  · rw [hd] at hd'
    cases hd'
    exact le_refl d
  · refine not_lt.mp fun hlt ↦ hafter u hu ⟨hrt, d', hd'⟩ ⟨d', hd', d, hd, hlt⟩

private theorem pickByPolicy_spec (s : Scheduler) {now : ℕ} (hdue : ¬s.DeadlineDue now) :
    (s.pickByPolicy = none ∧ ∀ t ∈ s.threads, t.state ≠ .ready)
      ∨ ∃ t, s.pickByPolicy = some t ∧ s.Selects now t := by
  rw [pickByPolicy]
  rcases s.bestRt_spec with ⟨hrt, hnort⟩ | ⟨t, p, hrt, -, hfirst⟩
  swap
  · rw [hrt]
    exact .inr ⟨t, rfl, .inr (.inl ⟨hdue, hfirst⟩)⟩
  rw [hrt]
  rcases s.bestMlfq_spec with ⟨hmlfq, hnomlfq⟩ | ⟨t, k, hmlfq, -, hfirst⟩
  swap
  · rw [hmlfq]
    exact .inr ⟨t, rfl, .inr (.inr (.inl ⟨hdue, hnort, hfirst⟩))⟩
  rw [hmlfq]
  rcases s.bestCfs_spec with ⟨hcfs, hnocfs⟩ | ⟨t, v, hcfs, -, hfirst⟩
  swap
  · rw [hcfs]
    exact .inr ⟨t, rfl, .inr (.inr (.inr ⟨hdue, hnort, hnomlfq, hfirst⟩))⟩
  -- every policy was looked at
  refine .inl ⟨by rw [hcfs]; rfl, fun t ht hready ↦ ?_⟩
  cases hpolicy : t.policy with
  | mlfq => exact hnomlfq t ht ⟨hready, hpolicy⟩
  | cfs => exact hnocfs t ht ⟨hready, hpolicy⟩
  | realtime p => exact hnort t ht ⟨hready, p, hpolicy⟩

/-- **The four loops implement the selection order.** -/
theorem pick_spec (s : Scheduler) {now : ℕ} (hnow : now + 1000000 < wordSize) :
    (s.pick now = none ∧ ∀ t ∈ s.threads, t.state ≠ .ready)
      ∨ ∃ t, s.pick now = some t ∧ s.Selects now t := by
  rw [pick]
  rcases s.bestRtDeadline_spec with ⟨hnone, hno⟩ | ⟨t, d, hsome, hkey, hfirst⟩
  · rw [hnone]
    refine s.pickByPolicy_spec ?_
    rintro ⟨t, ht, hrt, d, hd, -⟩
    exact hno t ht ⟨hrt, d, hd⟩
  · rw [hsome]
    obtain ⟨hrt, hd⟩ := deadlineKey_eq_some.mp hkey
    dsimp only
    rw [wadd_of_lt hnow]
    split_ifs with hle
    · exact .inr ⟨t, rfl, .inl ⟨⟨t, hfirst.mem, hrt, d, hd, hle⟩, hfirst⟩⟩
    · refine s.pickByPolicy_spec ?_
      rintro ⟨u, hu, hrtu, d', hd', hle'⟩
      exact hle ((hfirst.deadline_le hd hu hrtu hd').trans hle')

theorem Selects.ready {s : Scheduler} {now : ℕ} {t : SchedThread} (h : s.Selects now t) :
    t ∈ s.threads ∧ t.state = .ready := by
  rcases h with ⟨-, h⟩ | ⟨-, h⟩ | ⟨-, -, h⟩ | ⟨-, -, -, h⟩
  · exact ⟨h.mem, h.1.1.1⟩
  · exact ⟨h.mem, h.1.1⟩
  · exact ⟨h.mem, h.1.1⟩
  · exact ⟨h.mem, h.1.1⟩

end Scheduler

open Scheduler in
/-- **`pick_next` follows the documented order.** It returns a thread exactly when one is ready, the
thread it returns is the one selected by deadline, then realtime priority, then feedback queue and
effective priority, then virtual runtime, with ties going to the thread added first; and it changes
nothing but `current`, which it sets to what it returns. -/
theorem pickNext_selects (s : Scheduler) (now : ℕ) (hnow : now + 1000000 < wordSize) :
    (s.pickNext now).2 = { s with current := (s.pickNext now).1 }
      ∧ ((s.pickNext now).1 = none ↔ ∀ t ∈ s.threads, t.state ≠ .ready)
      ∧ ∀ id, (s.pickNext now).1 = some id → ∃ t, t.id = id ∧ s.Selects now t := by
  refine ⟨rfl, ?_⟩
  rw [pickNext]
  rcases s.pick_spec hnow with ⟨hnone, hno⟩ | ⟨t, hsome, hselects⟩
  · rw [hnone]
    exact ⟨iff_of_true rfl hno, nofun⟩
  · rw [hsome]
    obtain ⟨hmem, hready⟩ := hselects.ready
    refine ⟨iff_of_false nofun fun hno ↦ hno t hmem hready, fun id hid ↦ ⟨t, ?_, hselects⟩⟩
    exact Option.some.inj hid

/-- At the start of the clock, with one thread of each policy. -/
theorem pickNext_selects_zero :
    let s : Scheduler := { Scheduler.new with
      threads := [{ SchedThread.new 1 with policy := .cfs }, SchedThread.new 2,
        { SchedThread.new 3 with policy := .realtime 5 }] }
    (s.pickNext 0).1 = some 3
      ∧ ∀ id, (s.pickNext 0).1 = some id → ∃ t, t.id = id ∧ s.Selects 0 t :=
  ⟨by decide, (pickNext_selects _ 0 (by rw [wordSize]; omega)).2.2⟩

end Zeroxos
