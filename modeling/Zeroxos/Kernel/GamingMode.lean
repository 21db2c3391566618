import Zeroxos.Kernel.Boot
import Zeroxos.Kernel.Scheduler

/-!
# Gaming mode

Gaming mode is switched on for the process in the foreground, and is meant to raise the threads of
that process and to lower all others. The scheduler stores the pid and never looks at it: whether a
thread is raised depends on the three game flags in its own record. A thread of the game without a
flag, such as its network thread, is lowered with the rest, and a flagged thread of another process
is raised.

## Whose thread it is

That can only be seen in the process table (`GameKernel.processOf`), which the scheduler has no
access to, so the system has both. A thread without a record there is nobody's.

## The condition

The scheduler does what is meant exactly when flags and processes agree, on every thread to which it
makes a difference (`boostsGame_iff`): at the ends of the scale both clamps give the same priority.
-/

namespace Zeroxos

namespace Priority

/-- Raised or lowered, a priority comes out the same at the ends of the scale and nowhere else. -/
theorem boost_eq_boost_iff (p : ℤ) : boost p 20 = boost p (-10) ↔ -40 < p → 30 ≤ p := by
  change max (-20 : ℤ) (min 20 (max (-128) (min 127 (p + 20)))) =
    max (-20) (min 20 (max (-128) (min 127 (p + -10)))) ↔ _
  omega

theorem boost_lt_boost {p : ℤ} (hlow : -40 < p) (hhigh : p < 20) :
    boost p (-10) < boost p 20 := by
  change max (-20 : ℤ) (min 20 (max (-128) (min 127 (p + -10)))) <
    max (-20) (min 20 (max (-128) (min 127 (p + 20))))
  omega

end Priority

/-- The thread is marked as one of a game. -/
def SchedThread.isGame (t : SchedThread) : Bool :=
  t.isGameRender || t.isGamePhysics || t.isGameAudio

namespace Scheduler

variable {s : Scheduler} {now : ℕ} {t u : SchedThread}

theorem effectivePriority_of_gamingMode (hon : s.gamingMode = true) (t : SchedThread) :
    s.effectivePriority t = if t.isGame then t.priority.boost 20 else t.priority.boost (-10) :=
  if_pos hon

theorem pickByPolicy_mlfq (hpick : s.pickByPolicy = some u) (hpolicy : u.policy = .mlfq) :
    First ReadyMlfq s.HigherMlfq s.threads u := by
  rw [pickByPolicy] at hpick
  rcases s.bestRt_spec with ⟨hnone, -⟩ | ⟨t, p, hsome, hkey, -⟩
  swap
  · rw [hsome] at hpick
    obtain rfl := Option.some_inj.mp hpick
    rw [(rtKey_eq_some.mp hkey).2] at hpolicy
    cases hpolicy
  rw [hnone] at hpick
  rcases s.bestMlfq_spec with ⟨hnone, -⟩ | ⟨t, k, hsome, -, hfirst⟩
  swap
  · rw [hsome] at hpick
    obtain rfl := Option.some_inj.mp hpick
    exact hfirst
  rw [hnone] at hpick
  rcases s.bestCfs_spec with ⟨hnone, -⟩ | ⟨t, v, hsome, hkey, -⟩
  · rw [hnone] at hpick
    cases hpick
  · rw [hsome] at hpick
    obtain rfl := Option.some_inj.mp hpick
    rw [(cfsKey_eq_some.mp hkey).1.2] at hpolicy
    cases hpolicy

/-- A thread of the feedback queues is only ever picked by the third loop. -/
theorem pick_mlfq (hpick : s.pick now = some u) (hpolicy : u.policy = .mlfq) :
    First ReadyMlfq s.HigherMlfq s.threads u := by
  rw [pick] at hpick
  rcases s.bestRtDeadline_spec with ⟨hnone, -⟩ | ⟨t, d, hsome, hkey, -⟩
  · rw [hnone] at hpick
    exact pickByPolicy_mlfq hpick hpolicy
  · rw [hsome] at hpick
    dsimp only at hpick
    split_ifs at hpick
    · obtain rfl := Option.some_inj.mp hpick
      obtain ⟨p, hrt⟩ := (deadlineKey_eq_some.mp hkey).1.2
      rw [hrt] at hpolicy
      cases hpolicy
    · exact pickByPolicy_mlfq hpick hpolicy

/-- **Who comes after a ready thread is not picked**, wherever the two are in the list. -/
theorem pick_ne_of_higherMlfq (ht : t ∈ s.threads) (hready : ReadyMlfq t) (hu : ReadyMlfq u)
    (hhigher : s.HigherMlfq t u) : s.pick now ≠ some u := by
  intro hpick
  obtain ⟨-, before, after, hthreads, hbefore, hafter⟩ := pick_mlfq hpick hu.2
  have hasymm : ¬s.HigherMlfq u t := by
    unfold HigherMlfq at hhigher ⊢
    omega
  rw [hthreads, List.mem_append, List.mem_cons] at ht
  rcases ht with ht | rfl | ht
  · exact hasymm (hbefore t ht hready)
  · exact hasymm hhigher
  · exact hafter t ht hready hhigher

end Scheduler

/-! ## The game in the foreground -/

/-- A kernel in gaming mode for process `g`, whose process table knows every thread of the
scheduler. -/
structure GameKernel (g : ℕ) where
  kernel : Kernel
  gamingMode : kernel.scheduler.gamingMode = true
  foregroundGame : kernel.scheduler.foregroundGame = some g
  recorded : ∀ t ∈ kernel.scheduler.threads, ∃ r ∈ kernel.process.threads, r.tid = t.id

namespace GameKernel

open Scheduler

variable {g : ℕ} (k : GameKernel g)

/-- The threads of the scheduler. -/
abbrev threads : List SchedThread := k.kernel.scheduler.threads

/-- The process of a thread, by the process table. -/
def processOf (t : SchedThread) : Option ℕ :=
  (Table.lookup ProcessTable.Thread.tid t.id k.kernel.process.threads).map ProcessTable.Thread.pid

/-- The priority a thread should have. -/
def promised (t : SchedThread) : ℤ :=
  if k.processOf t = some g then t.priority.boost 20 else t.priority.boost (-10)

/-- `t` is a thread of the game, `u` is not, and gaming mode is all that is between them. -/
structure Rivals (t u : SchedThread) : Prop where
  ready : ReadyMlfq t ∧ ReadyMlfq u
  game : k.processOf t = some g
  other : k.processOf u ≠ some g
  level : t.mlfqLevel = u.mlfqLevel
  priority : t.priority = u.priority

/-- The threads of the game are raised, and only those; so they come first. -/
structure BoostsGame : Prop where
  priority : ∀ t ∈ k.threads, ReadyMlfq t → k.kernel.scheduler.effectivePriority t = k.promised t
  before : ∀ t ∈ k.threads, ∀ u ∈ k.threads, k.Rivals t u → t.priority < 20 →
    k.kernel.scheduler.HigherMlfq t u ∧ ∀ now, k.kernel.scheduler.pick now ≠ some u

variable {k}

theorem effectivePriority_eq_promised_iff (t : SchedThread) :
    k.kernel.scheduler.effectivePriority t = k.promised t ↔
      (-40 < t.priority → t.priority < 30 → (t.isGame = true ↔ k.processOf t = some g)) := by
  have hsame := Priority.boost_eq_boost_iff t.priority
  rw [effectivePriority_of_gamingMode k.gamingMode, promised]
  by_cases hflag : t.isGame = true
  · by_cases hgame : k.processOf t = some g
    · simp [hflag, hgame]
    · rw [if_pos hflag, if_neg hgame, hsame]
      simp [hflag, hgame]
  · by_cases hgame : k.processOf t = some g
    · rw [if_neg hflag, if_pos hgame, eq_comm, hsame]
      simp [hflag, hgame]
    · simp [hflag, hgame]

/-- **When gaming mode serves the game.** The game flags of a ready thread in the feedback queues
have to say whether it is one of the game, unless its priority is so far out that it makes no
difference; and no thread of the game may meet a rival at the bottom of the scale. -/
theorem boostsGame_iff : k.BoostsGame ↔
    (∀ t ∈ k.threads, ReadyMlfq t → -40 < t.priority → t.priority < 30 →
      (t.isGame = true ↔ k.processOf t = some g)) ∧
    ∀ t ∈ k.threads, ∀ u ∈ k.threads, k.Rivals t u → -40 < t.priority := by
  constructor
  · intro h
    refine ⟨fun t ht hready ↦ effectivePriority_eq_promised_iff t |>.mp (h.priority t ht hready),
      fun t ht u hu hrivals ↦ ?_⟩
    by_contra hlow
    -- both are clamped to the bottom, and neither comes before the other
    have hhigher := (h.before t ht u hu hrivals ((not_lt.mp hlow).trans_lt (by decide))).1
    have hsame := (Priority.boost_eq_boost_iff t.priority).mpr fun h ↦ absurd h hlow
    have ht' := h.priority t ht hrivals.ready.1
    have hu' := h.priority u hu hrivals.ready.2
    rw [promised, if_pos hrivals.game] at ht'
    rw [promised, if_neg hrivals.other, ← hrivals.priority, ← hsame] at hu'
    have hlevel := hrivals.level
    unfold HigherMlfq at hhigher
    omega
  · rintro ⟨hflags, hbottom⟩
    have hpriority : ∀ t ∈ k.threads, ReadyMlfq t →
        k.kernel.scheduler.effectivePriority t = k.promised t :=
      fun t ht hready ↦ (effectivePriority_eq_promised_iff t).mpr (hflags t ht hready)
    refine ⟨hpriority, fun t ht u hu hrivals htop ↦ ?_⟩
    have hhigher : k.kernel.scheduler.HigherMlfq t u := by
      refine .inr ⟨hrivals.level, ?_⟩
      rw [hpriority t ht hrivals.ready.1, hpriority u hu hrivals.ready.2, promised, promised,
        if_pos hrivals.game, if_neg hrivals.other, ← hrivals.priority]
      exact Priority.boost_lt_boost (hbottom t ht u hu hrivals) htop
    exact ⟨hhigher, fun now ↦ pick_ne_of_higherMlfq ht hrivals.ready.1 hrivals.ready.2 hhigher⟩

/-! ## The network thread -/

/-- A game, process 1, with its network thread, and an indexer, process 2, whose thread was added
first; no flag is set. -/
def netGame : GameKernel 1 where
  kernel := { Kernel.new with
    scheduler := Scheduler.setGamingMode true (some 1)
      { Scheduler.new with threads := [SchedThread.new 2, SchedThread.new 1] }
    process := { ProcessTable.new with
      threads := [ProcessTable.Thread.new 1 1, ProcessTable.Thread.new 2 2] } }
  gamingMode := rfl
  foregroundGame := rfl
  recorded := by decide

/-- **The game waits for the indexer**, and its thread has been lowered. -/
theorem netGame_not_boosted :
    netGame.kernel.scheduler.pick 0 = some (SchedThread.new 2) ∧
      netGame.kernel.scheduler.effectivePriority (SchedThread.new 1) = -10 ∧
      netGame.promised (SchedThread.new 1) = 20 ∧ ¬netGame.BoostsGame := by
  refine ⟨by decide, by decide, by decide, fun h ↦ ?_⟩
  have hpriority := h.priority (SchedThread.new 1) (by decide) ⟨rfl, rfl⟩
  exact absurd hpriority (by decide)

end GameKernel

end Zeroxos
