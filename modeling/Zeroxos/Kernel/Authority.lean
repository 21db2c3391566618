import Zeroxos.Kernel.Process
import Zeroxos.Library.Interleave
import Mathlib.Data.Finset.Dedup

/-!
# Processes and what they may do

The process table and the security manager are two fields of the kernel, and neither looks at the
other: a grant takes any number for a pid, and a process that ends keeps its tokens. What is
promised all the same, that capabilities are only granted, never taken or passed on, is a fact about
calls to both.

## The system

The two are put side by side (`Machine.beside`), with one condition on their common caller: a grant
is to a process that was spawned. What is known of either component holds along the runs of both.

## What it rests on

The pids. No pid is given out twice, so that a new process has nothing and the tokens of a process
that has ended are nobody else's (`authority_accounted`). The capability set in a process record is
a set of its own, and stays empty.
-/

namespace Zeroxos

/-! ## Capability sets -/

namespace CapabilitySet

def has (cap : Capability) (s : List Capability) : Bool := s.contains cap

def grant (cap : Capability) (s : List Capability) : List Capability :=
  if s.contains cap then s else s ++ [cap]

def revoke (cap : Capability) (s : List Capability) : List Capability :=
  s.filter fun c ↦ c ≠ cap

def check (cap : Capability) (s : List Capability) : Except SecurityError Unit :=
  if has cap s then .ok () else .error .missingCapability

variable {cap : Capability} {s : List Capability}

theorem nodup_grant (h : s.Nodup) : (grant cap s).Nodup := by
  rw [grant]
  split_ifs with hmem
  · exact h
  · rw [List.contains_iff_mem] at hmem
    rw [← List.concat_eq_append]
    exact h.concat hmem

theorem toFinset_grant : (grant cap s).toFinset = insert cap s.toFinset := by
  rw [grant]
  split_ifs with hmem
  · rw [List.contains_iff_mem, ← List.mem_toFinset] at hmem
    rw [Finset.insert_eq_of_mem hmem]
  · rw [List.toFinset_append, List.toFinset_cons, List.toFinset_nil, Finset.union_insert,
      Finset.union_empty]

theorem toFinset_revoke : (revoke cap s).toFinset = s.toFinset.erase cap := by
  ext c
  rw [revoke, List.mem_toFinset, List.mem_filter, Finset.mem_erase, List.mem_toFinset,
    decide_eq_true_eq, and_comm]

theorem check_eq_ok_iff : check cap s = .ok () ↔ cap ∈ s.toFinset := by
  rw [check, has, List.mem_toFinset, ← List.contains_iff_mem]
  split_ifs with h
  · exact iff_of_true rfl h
  · exact iff_of_false nofun h

/-- A call that changes a set. -/
inductive Change
  | grant (cap : Capability)
  | revoke (cap : Capability)

/-- What it does to the vector. -/
def Change.apply (s : List Capability) : Change → List Capability
  | .grant cap => CapabilitySet.grant cap s
  | .revoke cap => CapabilitySet.revoke cap s

/-- What it means. -/
def Change.meaning (s : Finset Capability) : Change → Finset Capability
  | .grant cap => insert cap s
  | .revoke cap => s.erase cap

theorem Change.nodup_apply (h : s.Nodup) (change : Change) : (change.apply s).Nodup := by
  cases change with
  | grant cap => exact nodup_grant h
  | revoke cap => exact h.filter _

theorem Change.toFinset_apply (change : Change) :
    (change.apply s).toFinset = change.meaning s.toFinset := by
  cases change with
  | grant cap => exact toFinset_grant
  | revoke cap => exact toFinset_revoke

/-- **A capability set is a set**: whatever was granted and revoked, no capability is there twice,
and the check answers as for the set of what was granted last. -/
theorem refines_finset (changes : List Change) :
    (changes.foldl Change.apply []).Nodup ∧
      ∀ cap, check cap (changes.foldl Change.apply []) = .ok ()
        ↔ cap ∈ changes.foldl Change.meaning ∅ := by
  have hrun : (changes.foldl Change.apply []).Nodup ∧
      (changes.foldl Change.apply []).toFinset = changes.foldl Change.meaning ∅ := by
    induction changes using List.reverseRecOn with
    | nil => exact ⟨List.nodup_nil, rfl⟩
    | append_singleton changes change ih =>
      rw [List.foldl_append, List.foldl_append, List.foldl_cons, List.foldl_nil, List.foldl_cons,
        List.foldl_nil, ← ih.2]
      exact ⟨change.nodup_apply ih.1, change.toFinset_apply⟩
  rw [← hrun.2]
  exact ⟨hrun.1, fun cap ↦ check_eq_ok_iff⟩

end CapabilitySet

/-! ## The two components -/

namespace Authority

/-- The process table and the security manager of the kernel. -/
abbrev State : Type := ProcessTable × SecuritySys

/-- A call to either. -/
abbrev Call : Type := ProcessCall ⊕ SecurityCall

/-- Capabilities are granted to processes that were spawned. -/
def Guard (s : State) : Call → Prop
  | .inr (.grant pid _) => ∃ p, s.1.get pid = some p
  | .inr (.revoke _) => True
  | .inl _ => True

/-- The two side by side. -/
def machine : Machine State Call :=
  (ProcessTable.machine fun _ _ ↦ True).beside SecuritySys.machine Guard

/-- **Where authority comes from**, and where it goes, in a run from `s₀` to `s`. -/
structure Accounted (s₀ : State) (calls : List Call) (s : State) : Prop where
  /-- What a process may do it might do before, or it was granted in the run. -/
  check : ∀ p c, s.2.manager.check p c = .ok () →
    s₀.2.manager.check p c = .ok () ∨ .inr (.grant p c) ∈ calls
  /-- A token that was given out stands for nothing else afterwards, and does not come back. -/
  token : ∀ t ∈ s₀.2.tokens, ∀ p c, s.2.manager.verifyToken t p = .ok c →
    s₀.2.manager.verifyToken t p = .ok c
  /-- A token is lost by being revoked, and not by the end of its process. -/
  lost : ∀ t p c, s₀.2.manager.verifyToken t p = .ok c →
    s.2.manager.verifyToken t p = .ok c ∨ .inr (.revoke t) ∈ calls
  /-- A new process has nothing. -/
  spawned : ∀ name nowNs pid table, s.1.spawn name nowNs = some (pid, table) →
    (∀ c, s.2.manager.check pid c = .error .missingCapability) ∧
      ∀ t, s.2.manager.verifyToken t pid = .error .invalidToken
  /-- Nothing is inherited. -/
  inherits : ∀ p ∈ s.1.processes, p.caps = [] ∧ p.parent = none

end Authority

/-! ## The process table -/

namespace ProcessTable

variable {s s' : ProcessTable} {call : ProcessCall} {pid : ℕ}

theorem numbered_of_reachable {guard : ProcessTable → ProcessCall → Prop}
    (hs : (machine guard).system.Reachable s) : s.Numbered := by
  refine hs.invariant (P := Numbered) (fun s hs ↦ ?_) (fun s call s' _ h hstep ↦ h.next hstep.2)
  rw [hs]
  exact numbered_new

theorem Numbered.exists_get_iff (h : s.Numbered) :
    (∃ p, s.get pid = some p) ↔ 1 ≤ pid ∧ pid < s.nextPid := by
  have hmem : (∃ p, s.get pid = some p) ↔ pid ∈ s.processes.map Process.pid := by
    rw [List.mem_map]
    exact exists_congr fun p ↦ h.get_eq_some
  rw [hmem, h.pids, List.mem_range'_1, h.nextPid, Nat.add_comm]

theorem Numbered.nextPid_le (h : s.Numbered) (hs' : s.next call = some s') :
    s.nextPid ≤ s'.nextPid := by
  cases call with
  | spawn name nowNs =>
    obtain ⟨-, rfl⟩ := next_spawn hs'
    rw [h.wadd_nextPid]
    exact Nat.le_succ _
  | spawnThread pid =>
    obtain ⟨-, rfl⟩ := next_spawnThread h hs'
    exact le_rfl
  | kill pid =>
    rw [← Option.some.inj hs', kill, terminate_eq h]
  | exit pid code =>
    rw [← Option.some.inj hs', exit, terminate_eq h]

theorem Numbered.exists_get_next (h : s.Numbered) (hs' : s.next call = some s')
    (hpid : ∃ p, s.get pid = some p) : ∃ p, s'.get pid = some p := by
  rw [h.exists_get_iff] at hpid
  rw [(h.next hs').exists_get_iff]
  exact ⟨hpid.1, hpid.2.trans_le (h.nextPid_le hs')⟩

/-- No record says of a process what it may do, or who its parent is. -/
def Bare (s : ProcessTable) : Prop := ∀ p ∈ s.processes, p.caps = [] ∧ p.parent = none

theorem Bare.map (h : s.Bare) {f : Process → Process}
    (hf : ∀ p, (f p).caps = p.caps ∧ (f p).parent = p.parent) (threads : List Thread)
    (nextPid nextTid : ℕ) : Bare ⟨s.processes.map f, threads, nextPid, nextTid⟩ := by
  intro p hp
  obtain ⟨q, hq, rfl⟩ := List.mem_map.mp hp
  rw [(hf q).1, (hf q).2]
  exact h q hq

theorem Bare.next (h : s.Bare) (hnumbered : s.Numbered) (hs' : s.next call = some s') :
    s'.Bare := by
  cases call with
  | spawn name nowNs =>
    obtain ⟨-, rfl⟩ := next_spawn hs'
    intro p hp
    rcases List.mem_append.mp hp with hp | hp
    · exact h p hp
    · rw [List.mem_singleton.mp hp]
      exact ⟨rfl, rfl⟩
  | spawnThread pid =>
    obtain ⟨-, rfl⟩ := next_spawnThread hnumbered hs'
    exact h.map (fun p ↦ by split_ifs <;> exact ⟨rfl, rfl⟩) _ _ _
  | kill pid =>
    rw [← Option.some.inj hs', kill, terminate_eq hnumbered]
    exact h.map (fun p ↦ by split_ifs <;> exact ⟨rfl, rfl⟩) _ _ _
  | exit pid code =>
    rw [← Option.some.inj hs', exit, terminate_eq hnumbered]
    exact h.map (fun p ↦ by split_ifs <;> exact ⟨rfl, rfl⟩) _ _ _

theorem bare_of_reachable {guard : ProcessTable → ProcessCall → Prop}
    (hs : (machine guard).system.Reachable s) : s.Bare := by
  refine hs.invariant (P := Bare) (fun s hs ↦ ?_) fun s call s' hr h hstep ↦
    h.next (numbered_of_reachable hr) hstep.2
  rw [hs]
  exact List.forall_mem_nil _

end ProcessTable

/-! ## The security manager along a run -/

namespace SecuritySys

open TransitionSystem

variable {s₀ s : SecuritySys} {l : List (SecuritySys × SecurityCall)} {t : CapabilityToken} {p : ℕ}
  {c : Capability}

theorem mem_tokens_of_run (h : machine.system.Run s₀ l s) (ht : t ∈ s₀.tokens) :
    t ∈ s.tokens := by
  induction h with
  | nil => exact ht
  | @snoc l s s' call _ hstep ih =>
    obtain rfl := Option.some.inj hstep.2
    cases call with
    | grant pid cap =>
      rw [tokens_grant]
      exact List.mem_append_left _ ih
    | revoke token =>
      rw [tokens_revoke]
      exact ih

/-- **What is live was live, or is new.** -/
theorem live_of_run (hs₀ : machine.system.Reachable s₀) (h : machine.system.Run s₀ l s)
    (hlive : Live s.history t p c) : Live s₀.history t p c ∨
      (.grant p c ∈ l.map Prod.snd ∧ t ∉ s₀.tokens) := by
  induction h with
  | nil => exact .inl hlive
  | @snoc l s s' call hrun hstep ih =>
    obtain ⟨hlegal, hnext⟩ := hstep
    obtain rfl := Option.some.inj hnext
    rw [List.map_append, List.mem_append]
    have hbefore : Live s.history t p c → Live s₀.history t p c ∨
        ((.grant p c ∈ l.map Prod.snd ∨ .grant p c ∈ [(s, call)].map Prod.snd) ∧ t ∉ s₀.tokens) :=
      fun hlive ↦ (ih hlive).imp_right fun ⟨hcall, ht⟩ ↦ ⟨.inl hcall, ht⟩
    cases call with
    | grant pid cap =>
      rcases live_append_granted.mp hlive with ⟨rfl, rfl, rfl⟩ | hlive
      · have hfresh := (inv_of_reachable (hs₀.run hrun)).grant_fresh hlegal
        refine .inr ⟨.inr List.mem_cons_self, fun ht ↦ hfresh ?_⟩
        exact mem_tokens_of_run hrun ht
      · exact hbefore hlive
    | revoke token => exact hbefore (live_append_revoked.mp hlive).1

/-- **What is no longer live was revoked.** -/
theorem live_or_revoked_of_run (h : machine.system.Run s₀ l s) (hlive : Live s₀.history t p c) :
    Live s.history t p c ∨ .revoke t ∈ l.map Prod.snd := by
  induction h with
  | nil => exact .inl hlive
  | @snoc l s s' call _ hstep ih =>
    obtain rfl := Option.some.inj hstep.2
    rw [List.map_append, List.mem_append]
    rcases ih with hlive | hcall
    · cases call with
      | grant pid cap => exact .inl (live_append_granted.mpr (.inr hlive))
      | revoke token =>
        by_cases ht : t = token
        · rw [ht]
          exact .inr (.inr List.mem_cons_self)
        · exact .inl (live_append_revoked.mpr ⟨hlive, ht⟩)
    · exact .inr (.inl hcall)

end SecuritySys

/-! ## The two together -/

namespace Authority

open Machine TransitionSystem

variable {s₀ s : State} {l : List (State × Call)}

/-- Whoever has a token was spawned. -/
theorem spawned_of_issued (hs : machine.system.Reachable s) :
    ∀ e ∈ s.2.manager.issued, ∃ p, s.1.get e.pid = some p := by
  refine hs.invariant (P := fun s ↦ ∀ e ∈ s.2.manager.issued, ∃ p, s.1.get e.pid = some p)
    (fun s hs e he ↦ ?_) fun s call s' hr h hstep ↦ ?_
  · rw [hs.2] at he
    cases he
  have hnumbered := ProcessTable.numbered_of_reachable hr.fst
  have hinv := SecuritySys.inv_of_reachable hr.snd
  cases call with
  | inl call =>
    obtain ⟨-, ⟨-, hnext⟩, hsame⟩ := beside_inl.mp hstep
    rw [hsame]
    exact fun e he ↦ hnumbered.exists_get_next hnext (h e he)
  | inr call =>
    obtain ⟨hguard, ⟨-, hnext⟩, hsame⟩ := beside_inr.mp hstep
    rw [hsame, ← Option.some.inj hnext]
    intro e he
    cases call with
    | grant pid cap =>
      rcases List.mem_append.mp he with he | he
      · exact h e he
      · rw [List.mem_singleton.mp he]
        exact hguard
    | revoke token =>
      have hmanager : (s.2.next (.revoke token)).manager = _ := hinv.revoke_eq token
      rw [hmanager] at he
      exact h e (List.mem_of_mem_filter he)

theorem not_live_of_not_spawned (hs : machine.system.Reachable s) {pid : ℕ}
    (hpid : ¬∃ p, s.1.get pid = some p) (t : CapabilityToken) (c : Capability) :
    ¬Live s.2.history t pid c := by
  intro hlive
  have hinv := SecuritySys.inv_of_reachable hs.snd
  exact hpid (spawned_of_issued hs _ ((hinv.live t pid c).mpr hlive))

theorem not_spawned_nextPid (hs : machine.system.Reachable s) :
    ¬∃ p, s.1.get s.1.nextPid = some p := by
  rw [(ProcessTable.numbered_of_reachable hs.fst).exists_get_iff]
  exact fun h ↦ lt_irrefl _ h.2

theorem mem_calls {call : SecurityCall}
    (h : call ∈ (l.map Prod.snd).filterMap Sum.getRight?) : .inr call ∈ l.map Prod.snd := by
  obtain ⟨e, he, hcall⟩ := List.mem_filterMap.mp h
  rwa [← Sum.getRight?_eq_some_iff.mp hcall]

end Authority

open Authority in
/-- **Authority comes from grants.** In a run of calls to the process table and to the security
manager, grants being made to processes that were spawned, what a process may do at the end it might
do at the beginning or was granted in between; a token never stands for anything but what it was
given out for, and is lost only by being revoked; and a new process starts with nothing. -/
theorem authority_accounted {s₀ s : State} {l : List (State × Call)}
    (hs₀ : machine.system.Reachable s₀) (hl : machine.system.Run s₀ l s) :
    Accounted s₀ (l.map Prod.snd) s := by
  have hs := hs₀.run hl
  have hinv₀ := SecuritySys.inv_of_reachable hs₀.snd
  have hinv := SecuritySys.inv_of_reachable hs.snd
  obtain ⟨l', hl', hcalls⟩ := hl.snd
  refine ⟨fun p c hcheck ↦ ?_, fun t ht p c hverify ↦ ?_, fun t p c hverify ↦ ?_,
    fun name nowNs pid table hspawn ↦ ?_, ProcessTable.bare_of_reachable hs.fst⟩
  · obtain ⟨t, hlive⟩ := hinv.check_ok_iff.mp hcheck
    rcases SecuritySys.live_of_run hs₀.snd hl' hlive with hlive | ⟨hcall, -⟩
    · exact .inl (hinv₀.check_ok_iff.mpr ⟨t, hlive⟩)
    · exact .inr (mem_calls (hcalls ▸ hcall))
  · have hlive := hinv.verify_ok_iff.mp hverify
    rcases SecuritySys.live_of_run hs₀.snd hl' hlive with hlive | ⟨-, hnew⟩
    · exact hinv₀.verify_ok_iff.mpr hlive
    · exact absurd ht hnew
  · have hlive := hinv₀.verify_ok_iff.mp hverify
    rcases SecuritySys.live_or_revoked_of_run hl' hlive with hlive | hcall
    · exact .inl (hinv.verify_ok_iff.mpr hlive)
    · exact .inr (mem_calls (hcalls ▸ hcall))
  · have hpid : pid = s.1.nextPid := by
      obtain ⟨processes, -, heq⟩ := Option.bind_eq_some_iff.mp hspawn
      exact (Prod.mk.inj (Option.some.inj heq)).1.symm
    subst hpid
    have hnone := not_live_of_not_spawned hs (not_spawned_nextPid hs)
    refine ⟨fun c ↦ ?_, fun t ↦ hinv.verify_error_iff.mpr (hnone t)⟩
    cases hresult : s.2.manager.check s.1.nextPid c with
    | ok u =>
      obtain ⟨t, hlive⟩ := hinv.check_ok_iff.mp hresult
      exact absurd hlive (hnone t c)
    | error e => rw [SecuritySys.check_error hresult]

open Authority in
/-- A process is given a capability and killed, and another one is spawned. -/
theorem authority_accounted_killed : ∃ s : State,
    s.1.processes.map Process.state = [.killed, .runnable] ∧
      s.2.manager.check 1 .gpu = .ok () ∧ s.2.manager.check 2 .gpu = .error .missingCapability ∧
      Accounted (ProcessTable.new, SecuritySys.new)
        [.inl (.spawn "game" 0), .inr (.grant 1 .gpu), .inl (.kill 1), .inl (.spawn "sh" 5)] s := by
  have hone : 1 < wordSize := by
    rw [wordSize]
    omega
  have hspawned : machine.system.Run (ProcessTable.new, SecuritySys.new) _ _ :=
    .snoc (e := (.inl (.spawn "game" 0) : Call)) .nil ⟨⟨trivial, trivial⟩, rfl⟩
  have hgranted : machine.system.Run _ _ _ :=
    .snoc (e := (.inr (.grant 1 .gpu) : Call)) hspawned ⟨⟨⟨_, rfl⟩, hone⟩, rfl⟩
  have hkilled : machine.system.Run _ _ _ :=
    .snoc (e := (.inl (.kill 1) : Call)) hgranted ⟨⟨trivial, trivial⟩, rfl⟩
  have hsecond : machine.system.Run _ _ _ :=
    .snoc (e := (.inl (.spawn "sh" 5) : Call)) hkilled ⟨⟨trivial, trivial⟩, rfl⟩
  have hnew : machine.system.Reachable (ProcessTable.new, SecuritySys.new) := .init ⟨rfl, rfl⟩
  exact ⟨_, by decide, rfl, rfl, authority_accounted hnew hsecond⟩

end Zeroxos
