import Zeroxos.Kernel.Scheduler

/-!
# Who gets the processor, and who does not

In one round the scheduler picks a thread, the thread runs for its quantum, and it is preempted. The
clock may show anything in between.

## Fairly scheduled threads

They compete by `vruntime`, which no operation advances, so whoever was added first runs in every
round, and with two threads or more the others never run (`cfs_fair_iff`).

## Threads in the feedback queues

They take turns for as long as preemption moves them down: with all of them equal but for the queue
it is the turn of the thread that was demoted least, and after a number of rounds the queues are
known (`MlfqCrowd.after`). Once all of them are in the last queue, whoever was added first runs in
every round from then on. A window of rounds has everyone's turn in it exactly when the demotions go
on for most of it (`mlfq_window_iff`).
-/

namespace Zeroxos

namespace Scheduler

/-! ## Rounds -/

/-- What a round did: the thread picked, and for how long it may run. -/
structure Round where
  picked : Option ThreadId
  ranNs : ℕ
deriving DecidableEq, Repr

/-- `pick_next` with the clock at `now`, and `preempt`. -/
def round (now : ℕ) (s : Scheduler) : Round × Scheduler :=
  let (picked, s) := s.pickNext now
  (⟨picked, s.currentQuantumNs⟩, s.preempt)

/-- The scheduler after some rounds, `clock r` being what the clock shows in round `r`. -/
def after (clock : ℕ → ℕ) (s : Scheduler) : ℕ → Scheduler
  | 0 => s
  | r + 1 => (round (clock r) (after clock s r)).2

/-- The thread picked in round `r`. -/
def pickedIn (clock : ℕ → ℕ) (s : Scheduler) (r : ℕ) : Option ThreadId :=
  (round (clock r) (after clock s r)).1.picked

/-- How often a thread was picked in the first `k` rounds. -/
def timesPicked (clock : ℕ → ℕ) (s : Scheduler) (k : ℕ) (id : ThreadId) : ℕ :=
  (List.range k).countP fun r ↦ pickedIn clock s r = some id

variable {s : Scheduler} {now n : ℕ} {clock : ℕ → ℕ} {id : ThreadId} {t : SchedThread}

theorem round_picked : (round now s).1.picked = (s.pick now).map SchedThread.id := rfl

theorem round_threads (hnodup : (s.threads.map SchedThread.id).Nodup) :
    (round now s).2.threads
      = s.threads.map fun u ↦ if some u.id = (round now s).1.picked then yielded u else u := by
  rw [round_picked]
  cases h : s.pick now with
  | none =>
    have hround : (round now s).2.threads = s.threads := by
      simp only [round, pickNext, h, preempt, Option.map_none]
    rw [hround]
    simp
  | some t =>
    have hround : (round now s).2.threads
        = (Table.visit SchedThread.id t.id (fun t ↦ ((), yielded t)) () s.threads).2 := by
      simp only [round, pickNext, h, preempt, Option.map_some, yieldThread]
    rw [hround, Table.visit_snd_eq_map hnodup]
    simp only [Option.map_some, Option.some.injEq]

theorem round_ids (hnodup : (s.threads.map SchedThread.id).Nodup) :
    (round now s).2.threads.map SchedThread.id = s.threads.map SchedThread.id := by
  rw [round_threads hnodup, List.map_map]
  refine List.map_congr_left fun u _ ↦ ?_
  simp only [Function.comp_apply]
  split_ifs <;> rfl

theorem exists_of_mem_round (hnodup : (s.threads.map SchedThread.id).Nodup)
    (h : t ∈ (round now s).2.threads) : ∃ u ∈ s.threads, t = yielded u ∨ t = u := by
  rw [round_threads hnodup] at h
  obtain ⟨u, hu, rfl⟩ := List.mem_map.mp h
  refine ⟨u, hu, ?_⟩
  split_ifs
  · exact .inl rfl
  · exact .inr rfl

theorem round_gamingMode : (round now s).2.gamingMode = s.gamingMode := by
  simp only [round, pickNext, preempt]
  cases s.pick now with
  | none => rfl
  | some t => rfl

/-- Without ready realtime threads the feedback queues come first. -/
theorem pick_of_no_rt (h : ∀ t ∈ s.threads, ¬ReadyRt t) :
    s.pick now = (s.bestMlfq.map Prod.fst).or (s.bestCfs.map Prod.fst) := by
  have hdeadline : s.bestRtDeadline = none := by
    rcases s.bestRtDeadline_spec with ⟨hnone, -⟩ | ⟨t, d, -, -, hfirst⟩
    · exact hnone
    · exact absurd hfirst.1.1 (h t hfirst.mem)
  have hrt : s.bestRt = none := by
    rcases s.bestRt_spec with ⟨hnone, -⟩ | ⟨t, p, -, -, hfirst⟩
    · exact hnone
    · exact absurd hfirst.1 (h t hfirst.mem)
  rw [pick, hdeadline, pickByPolicy, hrt]
  cases s.bestMlfq <;> rfl

/-! ## Fairly scheduled threads -/

/-- Only ready CFS threads, all with the same `vruntime`, and no two with the same identifier. -/
structure CfsCrowd (v : ℕ) (s : Scheduler) : Prop where
  nodup : (s.threads.map SchedThread.id).Nodup
  ready : ∀ t ∈ s.threads, ReadyCfs t
  vruntime : ∀ t ∈ s.threads, t.vruntime = v

variable {v : ℕ}

theorem CfsCrowd.pick (h : s.CfsCrowd v) : s.pick now = s.threads.head? := by
  have hnort : ∀ t ∈ s.threads, ¬ReadyRt t := by
    rintro t ht ⟨-, p, hp⟩
    rw [(h.ready t ht).2] at hp
    cases hp
  have hmlfq : s.bestMlfq = none := by
    rcases s.bestMlfq_spec with ⟨hnone, -⟩ | ⟨t, k, -, -, hfirst⟩
    · exact hnone
    · have hpolicy := (h.ready t hfirst.mem).2
      rw [hfirst.1.2] at hpolicy
      cases hpolicy
  rw [pick_of_no_rt hnort, hmlfq]
  rcases s.bestCfs_spec with ⟨hnone, hno⟩ | ⟨t, k, hsome, -, hfirst⟩
  · rw [hnone]
    cases hthreads : s.threads with
    | nil => rfl
    | cons t l =>
      have ht : t ∈ s.threads := hthreads ▸ List.mem_cons_self
      exact absurd (h.ready t ht) (hno t ht)
  · rw [hsome]
    have hmem := hfirst.mem
    obtain ⟨-, before, after, hthreads, hbefore, -⟩ := hfirst
    cases before with
    | nil =>
      rw [hthreads]
      rfl
    | cons u before =>
      -- a thread added earlier would have to be worse
      have hu : u ∈ s.threads := by
        rw [hthreads]
        exact List.mem_cons_self
      have hlt : t.vruntime < u.vruntime := hbefore u List.mem_cons_self (h.ready u hu)
      rw [h.vruntime t hmem, h.vruntime u hu] at hlt
      exact absurd hlt (lt_irrefl v)

theorem CfsCrowd.round (h : s.CfsCrowd v) : (Scheduler.round now s).2.CfsCrowd v where
  nodup := by
    rw [round_ids h.nodup]
    exact h.nodup
  ready t ht := by
    obtain ⟨u, hu, rfl | rfl⟩ := exists_of_mem_round h.nodup ht
    · exact ⟨rfl, (h.ready u hu).2⟩
    · exact h.ready t hu
  vruntime t ht := by
    obtain ⟨u, hu, rfl | rfl⟩ := exists_of_mem_round h.nodup ht
    · exact h.vruntime u hu
    · exact h.vruntime t hu

theorem CfsCrowd.after (h : s.CfsCrowd v) (clock : ℕ → ℕ) (r : ℕ) :
    (s.after clock r).CfsCrowd v
      ∧ (s.after clock r).threads.map SchedThread.id = s.threads.map SchedThread.id := by
  induction r with
  | zero => exact ⟨h, rfl⟩
  | succ r ih =>
    refine ⟨ih.1.round, ?_⟩
    rw [Scheduler.after, round_ids ih.1.nodup, ih.2]

theorem CfsCrowd.pickedIn (h : s.CfsCrowd v) (r : ℕ) :
    s.pickedIn clock r = (s.threads.map SchedThread.id).head? := by
  obtain ⟨hr, hids⟩ := h.after clock r
  rw [Scheduler.pickedIn, round_picked, hr.pick, ← List.head?_map, hids]

theorem CfsCrowd.timesPicked (h : s.CfsCrowd v) (k : ℕ) (id : ThreadId) :
    s.timesPicked clock k id
      = if (s.threads.map SchedThread.id).head? = some id then k else 0 := by
  simp only [Scheduler.timesPicked, h.pickedIn]
  split_ifs with hid
  · simp [hid]
  · exact List.countP_eq_zero.mpr fun r _ ↦ by simpa using hid

/-! ## Threads in the feedback queues -/

/-- The queue of the thread at position `j` of `n` after `q` demotions, in turn, from queue `l`. -/
def demoted (l n q j : ℕ) : ℕ := l + q / n + if j < q % n then 1 else 0

/-- How many demotions there are before all of `n` threads are in the last queue. -/
def demotions (l n : ℕ) : ℕ := n * (mlfqLevels - 1 - l)

/-- The position of the thread picked in round `r`. -/
def turn (l n r : ℕ) : ℕ := min r (demotions l n) % n

theorem demoted_mod (l n q : ℕ) : demoted l n q (q % n) = l + q / n := by simp [demoted]

/-- There are demotions as long as the thread whose turn it is can go down. -/
theorem demoted_mod_lt_iff {l n q : ℕ} (hn : 0 < n) :
    demoted l n q (q % n) < mlfqLevels - 1 ↔ q < demotions l n := by
  rw [demoted_mod, demotions, mul_comm, ← Nat.div_lt_iff_lt_mul hn]
  exact Nat.lt_sub_iff_add_lt'.symm

theorem demoted_succ {l n q j : ℕ} (hj : j < n) :
    demoted l n (q + 1) j = if j = q % n then demoted l n q j + 1 else demoted l n q j := by
  have hmod := Nat.mod_lt q (j.zero_le.trans_lt hj)
  have hq := Nat.div_add_mod q n
  rcases eq_or_ne (q % n + 1) n with hlast | hlast
  · -- the last of a sweep
    obtain ⟨hdiv, hrest⟩ : (q + 1) / n = q / n + 1 ∧ (q + 1) % n = 0 := by
      rw [Nat.div_mod_unique (by omega), mul_add]
      omega
    simp only [demoted, hdiv, hrest]
    split_ifs <;> omega
  · obtain ⟨hdiv, hrest⟩ : (q + 1) / n = q / n ∧ (q + 1) % n = q % n + 1 := by
      rw [Nat.div_mod_unique (by omega)]
      omega
    simp only [demoted, hdiv, hrest]
    split_ifs <;> omega

/-- Only ready MLFQ threads of effective priority `p`, the thread at position `j` in queue
`level j`, and no two with the same identifier. -/
structure MlfqCrowd (p : ℤ) (level : ℕ → ℕ) (s : Scheduler) : Prop where
  nodup : (s.threads.map SchedThread.id).Nodup
  ready : ∀ t ∈ s.threads, ReadyMlfq t
  priority : ∀ t ∈ s.threads, s.effectivePriority t = p
  level : ∀ j (h : j < s.threads.length), s.threads[j].mlfqLevel = level j

variable {p : ℤ} {level : ℕ → ℕ}

/-- All but the queue being equal, the first thread of the highest queue is picked. -/
theorem MlfqCrowd.pick (h : s.MlfqCrowd p level) {j : ℕ} (hj : j < s.threads.length)
    (hbefore : ∀ i < j, level j < level i) (hafter : ∀ i < s.threads.length, level j ≤ level i) :
    s.pick now = some s.threads[j] := by
  have hnort : ∀ t ∈ s.threads, ¬ReadyRt t := by
    rintro t ht ⟨-, q, hq⟩
    rw [(h.ready t ht).2] at hq
    cases hq
  rw [pick_of_no_rt hnort]
  rcases s.bestMlfq_spec with ⟨hnone, hno⟩ | ⟨t, k, hsome, -, hfirst⟩
  · exact absurd (h.ready _ (List.getElem_mem hj)) (hno _ (List.getElem_mem hj))
  rw [hsome]
  have hmem := hfirst.mem
  obtain ⟨-, before, after, hthreads, hfront, hback⟩ := hfirst
  -- it is the thread at position `before.length`, and no other position will do
  have hi : before.length < s.threads.length := by
    rw [hthreads, List.length_append, List.length_cons]
    omega
  have ht : s.threads[before.length] = t := by simp [hthreads]
  have htlevel : t.mlfqLevel = level before.length := by
    rw [← ht]
    exact h.level _ hi
  have hhigher : ∀ u ∈ s.threads, ∀ w ∈ s.threads,
      s.HigherMlfq u w ↔ u.mlfqLevel < w.mlfqLevel := by
    intro u hu w hw
    rw [HigherMlfq, h.priority u hu, h.priority w hw]
    simp
  have hjmem := List.getElem_mem hj
  have hsame : before.length = j := by
    rcases lt_trichotomy before.length j with hlt | heq | hgt
    · have hin : s.threads[j] ∈ after := by
        simp only [hthreads, List.getElem_append_right hlt.le, List.getElem_cons,
          show j - before.length ≠ 0 by omega, dite_false]
        exact List.getElem_mem _
      have hworse := hback _ hin (h.ready _ hjmem)
      rw [hhigher _ hjmem _ hmem, h.level j hj, htlevel] at hworse
      exact absurd (hbefore _ hlt) hworse
    · exact heq
    · have hin : s.threads[j] ∈ before := by
        simp only [hthreads, List.getElem_append_left hgt]
        exact List.getElem_mem _
      have hbetter := hfront _ hin (h.ready _ hjmem)
      rw [hhigher _ hmem _ hjmem, h.level j hj, htlevel] at hbetter
      exact absurd (hafter _ hi) (not_le.mpr hbetter)
  subst hsame
  rw [ht]
  rfl

theorem MlfqCrowd.round (h : s.MlfqCrowd p level) {j : ℕ} (hj : j < s.threads.length)
    (hpick : s.pick now = some s.threads[j]) {level' : ℕ → ℕ}
    (hdemoted : level' j = if level j < mlfqLevels - 1 then level j + 1 else level j)
    (hsame : ∀ i < s.threads.length, i ≠ j → level' i = level i) :
    (Scheduler.round now s).2.MlfqCrowd p level' where
  nodup := by
    rw [round_ids h.nodup]
    exact h.nodup
  ready t ht := by
    obtain ⟨u, hu, rfl | rfl⟩ := exists_of_mem_round h.nodup ht
    · exact ⟨rfl, (h.ready u hu).2⟩
    · exact h.ready t hu
  priority t ht := by
    rw [effectivePriority, round_gamingMode]
    obtain ⟨u, hu, rfl | rfl⟩ := exists_of_mem_round h.nodup ht
    · exact h.priority u hu
    · exact h.priority t hu
  level i hi := by
    have hlen : i < s.threads.length := by
      have hids : (Scheduler.round now s).2.threads.map SchedThread.id
          = s.threads.map SchedThread.id := round_ids h.nodup
      have hlens := congrArg List.length hids
      rw [List.length_map, List.length_map] at hlens
      omega
    have hpicked : some s.threads[i].id = (Scheduler.round now s).1.picked ↔ i = j := by
      rw [round_picked, hpick, Option.map_some, Option.some.injEq,
        ← List.getElem_map (f := SchedThread.id) (h := by simpa using hlen),
        ← List.getElem_map (f := SchedThread.id) (h := by simpa using hj), h.nodup.getElem_inj_iff]
    simp only [round_threads h.nodup, List.getElem_map, hpicked]
    by_cases hij : i = j
    · subst hij
      have hpolicy := (h.ready _ (List.getElem_mem hlen)).2
      simp only [if_true, yielded, hpolicy, true_and, h.level i hlen, hdemoted]
    · rw [if_neg hij, h.level i hlen, hsame i hlen hij]

/-- It is the turn of the thread that was demoted least, and first among those. -/
theorem MlfqCrowd.pick_demoted {l q : ℕ} (h : s.MlfqCrowd p (demoted l s.threads.length q))
    (hj : q % s.threads.length < s.threads.length) :
    s.pick now = some s.threads[q % s.threads.length] := by
  refine h.pick hj (fun i hi ↦ ?_) fun i _ ↦ ?_
  · rw [demoted_mod, demoted, if_pos hi]
    omega
  · rw [demoted_mod, demoted]
    omega

/-- **Taking turns.** The threads go down the queues one after the other, and stop when all of them
are in the last one. -/
theorem MlfqCrowd.after {l : ℕ} (h : s.MlfqCrowd p fun _ ↦ l) (hpos : 0 < s.threads.length)
    (clock : ℕ → ℕ) (r : ℕ) :
    (s.after clock r).MlfqCrowd p
        (demoted l s.threads.length (min r (demotions l s.threads.length)))
      ∧ (s.after clock r).threads.map SchedThread.id = s.threads.map SchedThread.id := by
  induction r with
  | zero =>
    have hstart : demoted l s.threads.length 0 = fun _ ↦ l := by
      funext j
      simp [demoted]
    rw [Nat.zero_min, hstart]
    exact ⟨h, rfl⟩
  | succ r ih =>
    obtain ⟨hr, hids⟩ := ih
    have hlen : (s.after clock r).threads.length = s.threads.length := by
      simpa using congrArg List.length hids
    rw [← hlen] at hr hpos ⊢
    set n := (s.after clock r).threads.length
    refine ⟨?_, by rw [Scheduler.after, round_ids hr.nodup, hids]⟩
    have hj := Nat.mod_lt (min r (demotions l n)) hpos
    have hlast := demoted_mod_lt_iff (l := l) (q := min r (demotions l n)) hpos
    rcases lt_or_ge r (demotions l n) with hlt | hge
    · rw [min_eq_left hlt.le] at hr hj hlast
      rw [min_eq_left (Nat.succ_le_of_lt hlt)]
      refine hr.round hj (hr.pick_demoted hj) ?_ fun i hi hij ↦ ?_
      · rw [demoted_succ hj, if_pos rfl, if_pos (hlast.mpr hlt)]
      · rw [demoted_succ hi, if_neg hij]
    · rw [min_eq_right hge] at hr hj hlast
      rw [min_eq_right (hge.trans r.le_succ)]
      refine hr.round hj (hr.pick_demoted hj) ?_ fun i hi hij ↦ rfl
      rw [if_neg fun h ↦ absurd (hlast.mp h) (lt_irrefl _)]

theorem MlfqCrowd.pickedIn {l : ℕ} (h : s.MlfqCrowd p fun _ ↦ l) (hpos : 0 < s.threads.length)
    (r : ℕ) :
    s.pickedIn clock r = (s.threads.map SchedThread.id)[turn l s.threads.length r]? := by
  obtain ⟨hr, hids⟩ := h.after hpos clock r
  have hlen : (s.after clock r).threads.length = s.threads.length := by
    simpa using congrArg List.length hids
  rw [← hids, ← hlen]
  rw [← hlen] at hr hpos
  have hj := Nat.mod_lt (min r (demotions l (s.after clock r).threads.length)) hpos
  rw [Scheduler.pickedIn, round_picked, hr.pick_demoted hj, turn, List.getElem?_map,
    List.getElem?_eq_getElem hj]

private theorem exists_mod_eq {n j : ℕ} (hj : j < n) (i : ℕ) :
    ∃ r, i ≤ r ∧ r < i + n ∧ r % n = j := by
  have hi := Nat.div_add_mod i n
  have hmod := Nat.mod_lt i (j.zero_le.trans_lt hj)
  have hrem : ∀ a, (n * a + j) % n = j := fun a ↦ by rw [Nat.mul_add_mod, Nat.mod_eq_of_lt hj]
  rcases le_or_gt (i % n) j with hle | hlt
  · exact ⟨n * (i / n) + j, by omega, by omega, hrem _⟩
  · refine ⟨n * (i / n + 1) + j, ?_, ?_, hrem _⟩
    · rw [mul_add]
      omega
    · rw [mul_add]
      omega

/-- In a window of `2 n` rounds everyone has a turn exactly if the demotions go on for most of it.
-/
theorem forall_exists_turn_iff {l n i : ℕ} (hn : 2 ≤ n) :
    (∀ j < n, ∃ r, i ≤ r ∧ r < i + 2 * n ∧ turn l n r = j) ↔ i + n ≤ demotions l n + 1 := by
  have hdvd : demotions l n % n = 0 := Nat.mul_mod_right n _
  refine ⟨fun h ↦ ?_, fun h j hj ↦ ?_⟩
  · -- the second thread has a turn only while there are demotions
    obtain ⟨r, hir, -, hr⟩ := h 1 hn
    rw [turn] at hr
    rcases le_or_gt (demotions l n) r with hge | hlt
    · rw [min_eq_right hge, hdvd] at hr
      cases hr
    rw [min_eq_left hlt.le] at hr
    have hdiv := Nat.div_add_mod r n
    have hsweep : n * (r / n + 1) ≤ demotions l n :=
      Nat.mul_le_mul_left n (Nat.div_lt_of_lt_mul hlt)
    rw [mul_add] at hsweep
    omega
  · obtain ⟨r, hir, hrn, hr⟩ := exists_mod_eq hj i
    refine ⟨r, hir, by omega, ?_⟩
    rw [turn, min_eq_left (by omega), hr]

end Scheduler

/-- **Fairly scheduled threads are treated alike only for one round.** -/
theorem cfs_fair_iff (s : Scheduler) (v : ℕ) (hnodup : (s.threads.map SchedThread.id).Nodup)
    (hready : ∀ t ∈ s.threads, Scheduler.ReadyCfs t) (hvruntime : ∀ t ∈ s.threads, t.vruntime = v)
    (htwo : 2 ≤ s.threads.length) (clock : ℕ → ℕ) (k : ℕ) :
    ((∀ t ∈ s.threads, ∀ u ∈ s.threads,
        s.timesPicked clock k t.id ≤ s.timesPicked clock k u.id + 1) ↔ k ≤ 1)
      ∧ ∀ u ∈ s.threads.tail, s.timesPicked clock k u.id = 0 := by
  have h : s.CfsCrowd v := ⟨hnodup, hready, hvruntime⟩
  obtain ⟨t, u, l, hthreads⟩ : ∃ t u l, s.threads = t :: u :: l := by
    match hthreads : s.threads, htwo with
    | t :: u :: l, _ => exact ⟨t, u, l, rfl⟩
  have hpicked : ∀ w : SchedThread, s.timesPicked clock k w.id = if t.id = w.id then k else 0 := by
    intro w
    rw [h.timesPicked, hthreads]
    simp
  have htail : ∀ w ∈ s.threads.tail, s.timesPicked clock k w.id = 0 := by
    intro w hw
    rw [hthreads] at hw hnodup
    rw [hpicked, if_neg]
    exact fun heq ↦ (List.nodup_cons.mp hnodup).1 (heq ▸ List.mem_map_of_mem hw)
  refine ⟨⟨fun hfair ↦ ?_, fun hk w _ w' _ ↦ ?_⟩, htail⟩
  · -- the first thread against the second
    have hu := htail u (by simp [hthreads])
    have ht := hpicked t
    have hle := hfair t (by simp [hthreads]) u (by simp [hthreads])
    rw [hu, ht, if_pos rfl] at hle
    omega
  · rw [hpicked, hpicked]
    split_ifs <;> omega

/-- Two fairly scheduled threads, and two rounds: both go to the first. -/
theorem cfs_unfair_two :
    ¬∀ (s : Scheduler) (v : ℕ), (s.threads.map SchedThread.id).Nodup →
      (∀ t ∈ s.threads, Scheduler.ReadyCfs t) → (∀ t ∈ s.threads, t.vruntime = v) →
      2 ≤ s.threads.length → ∀ (clock : ℕ → ℕ) (k : ℕ), ∀ t ∈ s.threads, ∀ u ∈ s.threads,
        s.timesPicked clock k t.id ≤ s.timesPicked clock k u.id + 1 := by
  intro h
  have hfair := h
    { Scheduler.new with
      threads := [{ SchedThread.new 1 with policy := .cfs },
        { SchedThread.new 2 with policy := .cfs }] }
    0 (by decide) (by simp [Scheduler.ReadyCfs, SchedThread.new]) (by simp [SchedThread.new])
    (by decide) (fun _ ↦ 0) 2 { SchedThread.new 1 with policy := .cfs } (by decide)
    { SchedThread.new 2 with policy := .cfs } (by decide)
  revert hfair
  decide

/-- Two fairly scheduled threads, for one round. -/
theorem cfs_fair_iff_two :
    let s : Scheduler := { Scheduler.new with
      threads := [{ SchedThread.new 1 with policy := .cfs },
        { SchedThread.new 2 with policy := .cfs }] }
    ∀ t ∈ s.threads, ∀ u ∈ s.threads,
      s.timesPicked (fun _ ↦ 0) 1 t.id ≤ s.timesPicked (fun _ ↦ 0) 1 u.id + 1 :=
  (cfs_fair_iff _ 0 (by decide) (by simp [Scheduler.ReadyCfs, SchedThread.new])
    (by simp [SchedThread.new]) (by decide) (fun _ ↦ 0) 1).1.mpr (by decide)

/-- **Threads of one feedback queue share the processor until they reach the last queue.** A window
of `2 n` rounds sees all `n` of them exactly when it starts early enough. -/
theorem mlfq_window_iff (s : Scheduler) (l : ℕ) (p : ℤ)
    (hnodup : (s.threads.map SchedThread.id).Nodup)
    (hready : ∀ t ∈ s.threads, Scheduler.ReadyMlfq t) (hlevel : ∀ t ∈ s.threads, t.mlfqLevel = l)
    (hpriority : ∀ t ∈ s.threads, s.effectivePriority t = p) (htwo : 2 ≤ s.threads.length)
    (clock : ℕ → ℕ) (i : ℕ) :
    (∀ t ∈ s.threads, ∃ r, i ≤ r ∧ r < i + 2 * s.threads.length
        ∧ s.pickedIn clock r = some t.id)
      ↔ i + s.threads.length ≤ s.threads.length * (mlfqLevels - 1 - l) + 1 := by
  have h : s.MlfqCrowd p fun _ ↦ l :=
    ⟨hnodup, hready, hpriority, fun j hj ↦ hlevel _ (List.getElem_mem hj)⟩
  have hpos : 0 < s.threads.length := by omega
  rw [← Scheduler.demotions, ← Scheduler.forall_exists_turn_iff htwo, List.forall_mem_iff_getElem]
  refine forall₂_congr fun j hj ↦ exists_congr fun r ↦ and_congr_right' (and_congr_right' ?_)
  -- the thread at position `j` is picked when it is the turn of `j`
  have hturn : Scheduler.turn l s.threads.length r < s.threads.length := Nat.mod_lt _ hpos
  rw [h.pickedIn hpos, List.getElem?_map, List.getElem?_eq_getElem hturn, Option.map_some,
    Option.some.injEq, ← List.getElem_map (f := SchedThread.id) (h := by simpa using hturn),
    ← List.getElem_map (f := SchedThread.id) (h := by simpa using hj), hnodup.getElem_inj_iff]

/-- Two threads in the last queue: the second is not picked in the first four rounds. -/
theorem mlfq_starves_two :
    ¬∀ (s : Scheduler) (l : ℕ) (p : ℤ), (s.threads.map SchedThread.id).Nodup →
      (∀ t ∈ s.threads, Scheduler.ReadyMlfq t) → (∀ t ∈ s.threads, t.mlfqLevel = l) →
      (∀ t ∈ s.threads, s.effectivePriority t = p) → 2 ≤ s.threads.length →
      ∀ (clock : ℕ → ℕ) (i : ℕ), ∀ t ∈ s.threads, ∃ r, i ≤ r ∧ r < i + 2 * s.threads.length
        ∧ s.pickedIn clock r = some t.id := by
  intro h
  obtain ⟨r, -, hr, hpicked⟩ := h
    { Scheduler.new with
      threads := [{ SchedThread.new 1 with mlfqLevel := 3 },
        { SchedThread.new 2 with mlfqLevel := 3 }] }
    3 0 (by decide) (by simp [Scheduler.ReadyMlfq, SchedThread.new]) (by simp [SchedThread.new])
    (by decide) (by decide) (fun _ ↦ 0) 0 { SchedThread.new 2 with mlfqLevel := 3 } (by decide)
  revert r
  decide

/-- Two new threads, in the first four rounds. -/
theorem mlfq_window_iff_two :
    let s : Scheduler := { Scheduler.new with threads := [SchedThread.new 1, SchedThread.new 2] }
    ∀ t ∈ s.threads, ∃ r, 0 ≤ r ∧ r < 0 + 2 * s.threads.length
      ∧ s.pickedIn (fun _ ↦ 0) r = some t.id :=
  (mlfq_window_iff _ 0 0 (by decide) (by simp [Scheduler.ReadyMlfq, SchedThread.new])
    (by simp [SchedThread.new]) (by decide) (by decide) (fun _ ↦ 0) 0).mpr (by decide)

end Zeroxos
