import Zeroxos.Library.Rust
import Zeroxos.Library.Table
import Zeroxos.Library.Transition
import Mathlib.Data.Set.Card

/-!
# Capability tokens

`SecurityManager` keeps the tokens it issued in one vector: a grant appends an entry under a fresh
number, a revocation removes the first entry with the number it is given, and the checks walk the
vector from the front.

## Histories

What a token means is its history. A grant of a token is *live* when the token was not revoked
since, and the vector holds exactly the live grants, one entry for each. Every answer of the manager
is then an answer about the history (`security_refines_map`).

## Numbers

The next token is the number of grants so far and one, in a word. A run makes fewer than `2 ^ 64`
grants, so no number comes back, and the first entry with a number is the only one.
-/

namespace Zeroxos

inductive FileAccess
  | read
  | write
  | readWrite
  | execute
deriving DecidableEq, Repr

inductive Capability
  | camera
  | filesystem (pathHash : ℕ) (access : FileAccess)
  | network (bindAllowed : Bool)
  | bluetooth
  | gpu
  | audio
  | inputDevices
  | systemPower
  | driver (nameHash : ℕ)
  | kernelAdmin
deriving DecidableEq, Repr

abbrev CapabilityToken := ℕ

inductive SecurityError
  | missingCapability
  | invalidToken
  | tokenRevoked
  | permissionDenied
deriving DecidableEq, Repr

/-- An entry of `issued`. -/
structure Issued where
  token : CapabilityToken
  pid : ℕ
  cap : Capability
deriving DecidableEq, Repr

structure SecurityManager where
  nextToken : ℕ
  issued : List Issued
deriving DecidableEq, Repr

namespace SecurityManager

def new : SecurityManager := ⟨1, []⟩

def grant (pid : ℕ) (cap : Capability) (m : SecurityManager) : CapabilityToken × SecurityManager :=
  (m.nextToken, ⟨wadd m.nextToken 1, m.issued ++ [⟨m.nextToken, pid, cap⟩]⟩)

/-- `SecurityManager::revoke`: `remove` at the first `position`. -/
def revoke (token : CapabilityToken) (m : SecurityManager) : SecurityManager :=
  match m.issued.findIdx? fun e ↦ e.token = token with
  | some idx => { m with issued := m.issued.eraseIdx idx }
  | none => m

def check (pid : ℕ) (cap : Capability) (m : SecurityManager) : Except SecurityError Unit :=
  if m.issued.any fun e ↦ e.pid = pid ∧ e.cap = cap then .ok () else .error .missingCapability

def verifyToken (token : CapabilityToken) (pid : ℕ) (m : SecurityManager) :
    Except SecurityError Capability :=
  match m.issued.find? fun e ↦ e.token = token ∧ e.pid = pid with
  | some e => .ok e.cap
  | none => .error .invalidToken

def capabilityCount (m : SecurityManager) : ℕ := m.issued.length

end SecurityManager

/-! ## Histories -/

/-- What happened to tokens. -/
inductive TokenEvent
  /-- A grant, and the token it returned. -/
  | granted (token : CapabilityToken) (pid : ℕ) (cap : Capability)
  | revoked (token : CapabilityToken)
deriving DecidableEq, Repr

/-- Some grant of the capability to the process returned the token, and the token was not revoked
since. -/
def Live (history : List TokenEvent) (token : CapabilityToken) (pid : ℕ) (cap : Capability) :
    Prop :=
  ∃ before after, history = before ++ .granted token pid cap :: after ∧ .revoked token ∉ after

section Live

variable {history : List TokenEvent} {t t' : CapabilityToken} {p p' : ℕ} {c c' : Capability}

theorem not_live_nil : ¬Live [] t p c := by
  rintro ⟨before, after, h, -⟩
  cases before <;> cases h

private theorem live_append {e : TokenEvent} :
    Live (history ++ [e]) t p c
      ↔ e = .granted t p c ∨ (Live history t p c ∧ e ≠ .revoked t) := by
  constructor
  · rintro ⟨before, after, h, hnot⟩
    rcases List.eq_nil_or_concat after with rfl | ⟨after, e', rfl⟩
    · exact .inl (List.append_inj_right' h rfl |> List.singleton_inj.mp)
    · rw [List.concat_eq_append] at h hnot
      rw [← List.cons_append, ← List.append_assoc] at h
      obtain ⟨hhistory, he⟩ := List.append_inj' h rfl
      obtain rfl := List.singleton_inj.mp he
      rw [List.mem_append, not_or, List.mem_singleton] at hnot
      exact .inr ⟨⟨before, after, hhistory, hnot.1⟩, Ne.symm hnot.2⟩
  · rintro (rfl | ⟨⟨before, after, rfl, hnot⟩, he⟩)
    · exact ⟨history, [], rfl, List.not_mem_nil⟩
    · refine ⟨before, after ++ [e], by simp, ?_⟩
      rw [List.mem_append, not_or, List.mem_singleton]
      exact ⟨hnot, Ne.symm he⟩

theorem live_append_granted :
    Live (history ++ [.granted t' p' c']) t p c
      ↔ (t = t' ∧ p = p' ∧ c = c') ∨ Live history t p c := by
  rw [live_append, TokenEvent.granted.injEq]
  constructor
  · rintro (⟨rfl, rfl, rfl⟩ | ⟨hlive, -⟩)
    · exact .inl ⟨rfl, rfl, rfl⟩
    · exact .inr hlive
  · rintro (⟨rfl, rfl, rfl⟩ | hlive)
    · exact .inl ⟨rfl, rfl, rfl⟩
    · exact .inr ⟨hlive, nofun⟩

theorem live_append_revoked :
    Live (history ++ [.revoked t']) t p c ↔ Live history t p c ∧ t ≠ t' := by
  rw [live_append]
  constructor
  · rintro (h | ⟨hlive, hne⟩)
    · cases h
    · exact ⟨hlive, fun h ↦ hne (by rw [h])⟩
  · rintro ⟨hlive, hne⟩
    exact .inr ⟨hlive, fun h ↦ hne (TokenEvent.revoked.inj h).symm⟩

end Live

/-! ## The system -/

/-- The calls a client makes. -/
inductive SecurityCall
  | grant (pid : ℕ) (cap : Capability)
  | revoke (token : CapabilityToken)

/-- The manager, and what happened. -/
structure SecuritySys where
  manager : SecurityManager
  history : List TokenEvent

namespace SecuritySys

/-- Before the first call. -/
def new : SecuritySys := ⟨SecurityManager.new, []⟩

/-- One call. -/
def next (s : SecuritySys) : SecurityCall → SecuritySys
  | .grant pid cap =>
    let (token, manager) := s.manager.grant pid cap
    ⟨manager, s.history ++ [.granted token pid cap]⟩
  | .revoke token => ⟨s.manager.revoke token, s.history ++ [.revoked token]⟩

/-- The tokens returned so far, in order. -/
def tokens (s : SecuritySys) : List CapabilityToken :=
  s.history.filterMap fun
    | .granted token _ _ => some token
    | .revoked _ => none

/-- What a call may assume: fewer than `2 ^ 64` tokens are granted. -/
def Legal (s : SecuritySys) : SecurityCall → Prop
  | .grant _ _ => s.tokens.length + 1 < wordSize
  | .revoke _ => True

/-- The manager and its contract. -/
def machine : Machine SecuritySys SecurityCall where
  init s := s = new
  Legal := Legal
  next s call := some (s.next call)

/-! ## The invariant -/

/-- **The invariant.** -/
structure Inv (s : SecuritySys) : Prop where
  live : ∀ t p c, ⟨t, p, c⟩ ∈ s.manager.issued ↔ Live s.history t p c
  nodup : (s.manager.issued.map Issued.token).Nodup
  mem_tokens : ∀ e ∈ s.manager.issued, e.token ∈ s.tokens
  tokens_le : ∀ t ∈ s.tokens, t ≤ s.tokens.length
  nextToken : s.manager.nextToken = (s.tokens.length + 1) % wordSize
  tokens_lt : s.tokens.length < wordSize

theorem inv_new : new.Inv where
  live t p c := iff_of_false List.not_mem_nil not_live_nil
  nodup := List.nodup_nil
  mem_tokens e he := by cases he
  tokens_le t ht := by cases ht
  nextToken := rfl
  tokens_lt := by norm_num [new, tokens, wordSize]

variable {s : SecuritySys} {call : SecurityCall}

/-- The next token is the number of grants so far, and one. -/
theorem Inv.nextToken_eq (h : s.Inv) (hl : s.tokens.length + 1 < wordSize) :
    s.manager.nextToken = s.tokens.length + 1 := h.nextToken.trans (Nat.mod_eq_of_lt hl)

theorem Inv.grant_fresh (h : s.Inv) (hl : s.tokens.length + 1 < wordSize) :
    s.manager.nextToken ∉ s.tokens := by
  intro hmem
  have hle := h.tokens_le _ hmem
  rw [h.nextToken_eq hl] at hle
  exact Nat.not_succ_le_self _ hle

/-- Tokens being unique, a revocation removes the entries of its token. -/
theorem Inv.revoke_eq (h : s.Inv) (token : CapabilityToken) :
    s.manager.revoke token = { s.manager with
      issued := s.manager.issued.filter fun e ↦ e.token ≠ token } := by
  have herase := Table.eraseIdx_findIdx?_eq_filter (k := token) h.nodup
  rw [SecurityManager.revoke]
  cases hidx : s.manager.issued.findIdx? fun e ↦ e.token = token with
  | none =>
    rw [hidx] at herase
    rw [← herase]
    rfl
  | some i =>
    rw [hidx] at herase
    rw [← herase]
    rfl

@[simp] theorem tokens_grant (pid : ℕ) (cap : Capability) :
    (s.next (.grant pid cap)).tokens = s.tokens ++ [s.manager.nextToken] := by
  simp [tokens, next, SecurityManager.grant, List.filterMap_append]

@[simp] theorem tokens_revoke (token : CapabilityToken) :
    (s.next (.revoke token)).tokens = s.tokens := by
  simp [tokens, next, List.filterMap_append]

theorem inv_grant (h : s.Inv) (pid : ℕ) (cap : Capability)
    (hl : s.tokens.length + 1 < wordSize) : (s.next (.grant pid cap)).Inv := by
  have hfresh := h.grant_fresh hl
  have htoken := h.nextToken_eq hl
  have hissued : (s.next (.grant pid cap)).manager.issued
      = s.manager.issued ++ [⟨s.manager.nextToken, pid, cap⟩] := rfl
  refine ⟨fun t p c ↦ ?_, ?_, ?_, ?_, ?_, ?_⟩
  · rw [hissued, List.mem_append, List.mem_singleton, Issued.mk.injEq, h.live]
    exact Or.comm.trans live_append_granted.symm
  · rw [hissued, List.map_append, List.map_singleton, ← List.concat_eq_append]
    refine List.Nodup.concat (fun hmem ↦ ?_) h.nodup
    obtain ⟨e, he, htok⟩ := List.mem_map.mp hmem
    have hmem := h.mem_tokens e he
    rw [htok] at hmem
    exact hfresh hmem
  · intro e he
    rw [tokens_grant, List.mem_append, List.mem_singleton]
    rcases List.mem_append.mp he with he | he
    · exact .inl (h.mem_tokens e he)
    · rw [List.mem_singleton.mp he]
      exact .inr rfl
  · intro t ht
    rw [tokens_grant, List.mem_append, List.mem_singleton] at ht
    rw [tokens_grant, List.length_append, List.length_singleton]
    rcases ht with ht | rfl
    · exact (h.tokens_le t ht).trans (Nat.le_succ _)
    · exact htoken.le
  · show wadd s.manager.nextToken 1 = _
    rw [tokens_grant, List.length_append, List.length_singleton, htoken]
    rfl
  · rw [tokens_grant, List.length_append, List.length_singleton]
    exact hl

theorem inv_revoke (h : s.Inv) (token : CapabilityToken) : (s.next (.revoke token)).Inv := by
  have hmanager : (s.next (.revoke token)).manager = _ := h.revoke_eq token
  refine ⟨fun t p c ↦ ?_, ?_, ?_, ?_, ?_, ?_⟩
  · rw [hmanager, List.mem_filter, decide_eq_true_eq, h.live]
    exact live_append_revoked.symm
  · rw [hmanager]
    exact h.nodup.sublist (List.filter_sublist.map _)
  · rw [hmanager, tokens_revoke]
    exact fun e he ↦ h.mem_tokens e (List.mem_of_mem_filter he)
  · rw [tokens_revoke]
    exact h.tokens_le
  · rw [hmanager, tokens_revoke]
    exact h.nextToken
  · rw [tokens_revoke]
    exact h.tokens_lt

theorem inv_of_reachable (hs : machine.system.Reachable s) : s.Inv := by
  refine hs.invariant (P := Inv) (fun s hs ↦ ?_) (fun s call s' _ hinv hstep ↦ ?_)
  · rw [hs]
    exact inv_new
  · obtain ⟨hl, hnext⟩ := hstep
    obtain rfl := Option.some.inj hnext
    cases call with
    | grant pid cap => exact inv_grant hinv pid cap hl
    | revoke token => exact inv_revoke hinv token

/-! ## The answers of the manager -/

/-- The answers of the manager are those of a finite map from the live tokens to what they were
granted for. -/
structure RefinesMap (s : SecuritySys) : Prop where
  /-- A grant returns a token never returned before. -/
  grant_fresh : ∀ pid cap, s.Legal (.grant pid cap) → (s.manager.grant pid cap).1 ∉ s.tokens
  verify_ok_iff : ∀ t p c, s.manager.verifyToken t p = .ok c ↔ Live s.history t p c
  verify_error_iff : ∀ t p, s.manager.verifyToken t p = .error .invalidToken
    ↔ ∀ c, ¬Live s.history t p c
  check_ok_iff : ∀ p c, s.manager.check p c = .ok () ↔ ∃ t, Live s.history t p c
  /-- Other tokens are not affected by a revocation. -/
  revoke_verify : ∀ t t' p, t' ≠ t →
    (s.manager.revoke t).verifyToken t' p = s.manager.verifyToken t' p
  /-- Nor is a check of anything but what the token was granted for. -/
  revoke_check : ∀ t p c, ¬Live s.history t p c →
    (s.manager.revoke t).check p c = s.manager.check p c
  revoke_unknown : ∀ t, (∀ p c, ¬Live s.history t p c) → s.manager.revoke t = s.manager
  count : s.manager.capabilityCount = {t | ∃ p c, Live s.history t p c}.ncard

section Answers

open SecurityManager

variable {m : SecurityManager} {t t' : CapabilityToken} {p : ℕ} {c : Capability}

theorem check_eq_ok_iff : m.check p c = .ok () ↔ ∃ e ∈ m.issued, e.pid = p ∧ e.cap = c := by
  rw [check]
  split_ifs with h
  · exact iff_of_true rfl (by simpa using h)
  · exact iff_of_false nofun (by simpa using h)

theorem check_error {e : SecurityError} (h : m.check p c = .error e) : e = .missingCapability := by
  rw [check] at h
  split_ifs at h
  exact (Except.error.inj h).symm

theorem verifyToken_eq_ok_iff (hnodup : (m.issued.map Issued.token).Nodup) :
    m.verifyToken t p = .ok c ↔ ⟨t, p, c⟩ ∈ m.issued := by
  rw [verifyToken]
  split
  next e he =>
    have hmem := List.mem_of_find?_eq_some he
    have heq : e.token = t ∧ e.pid = p := by simpa using List.find?_some he
    obtain ⟨rfl, rfl⟩ := heq
    refine ⟨fun h ↦ ?_, fun h ↦ ?_⟩
    · obtain rfl := Except.ok.inj h
      exact hmem
    · rw [List.inj_on_of_nodup_map hnodup hmem h rfl]
  next hnone =>
    refine iff_of_false nofun fun h ↦ ?_
    have hne := List.find?_eq_none.mp hnone _ h
    simp at hne

theorem verifyToken_error {e : SecurityError} (h : m.verifyToken t p = .error e) :
    e = .invalidToken := by
  rw [verifyToken] at h
  split at h
  · cases h
  · exact (Except.error.inj h).symm

private theorem except_congr {α : Type*} {x y : Except SecurityError α} {e : SecurityError}
    (hx : ∀ e', x = .error e' → e' = e) (hy : ∀ e', y = .error e' → e' = e)
    (h : ∀ a, x = .ok a ↔ y = .ok a) : x = y := by
  cases y with
  | ok a => exact (h a).mpr rfl
  | error e' =>
    rw [hy e' rfl]
    cases x with
    | ok a => exact absurd ((h a).mp rfl) nofun
    | error e'' => rw [hx e'' rfl]

end Answers

variable {t t' : CapabilityToken} {p : ℕ} {c : Capability}

theorem Inv.verify_ok_iff (h : s.Inv) :
    s.manager.verifyToken t p = .ok c ↔ Live s.history t p c :=
  (verifyToken_eq_ok_iff h.nodup).trans (h.live t p c)

theorem Inv.verify_error_iff (h : s.Inv) :
    s.manager.verifyToken t p = .error .invalidToken ↔ ∀ c, ¬Live s.history t p c := by
  constructor
  · intro herror c hlive
    rw [h.verify_ok_iff.mpr hlive] at herror
    cases herror
  · intro hnone
    cases hresult : s.manager.verifyToken t p with
    | ok c => exact absurd (h.verify_ok_iff.mp hresult) (hnone c)
    | error e => rw [verifyToken_error hresult]

theorem Inv.check_ok_iff (h : s.Inv) :
    s.manager.check p c = .ok () ↔ ∃ t, Live s.history t p c := by
  rw [check_eq_ok_iff]
  constructor
  · rintro ⟨⟨t, p, c⟩, hmem, rfl, rfl⟩
    exact ⟨t, (h.live t p c).mp hmem⟩
  · rintro ⟨t, hlive⟩
    exact ⟨⟨t, p, c⟩, (h.live t p c).mpr hlive, rfl, rfl⟩

theorem live_revoke : Live (s.next (.revoke t)).history t' p c
    ↔ Live s.history t' p c ∧ t' ≠ t := live_append_revoked

theorem Inv.revoke_verify (h : s.Inv) (hne : t' ≠ t) :
    (s.manager.revoke t).verifyToken t' p = s.manager.verifyToken t' p := by
  refine except_congr (fun _ ↦ verifyToken_error) (fun _ ↦ verifyToken_error) fun c ↦ ?_
  have hafter := (inv_revoke h t).verify_ok_iff (t := t') (p := p) (c := c)
  rw [live_revoke] at hafter
  rw [h.verify_ok_iff]
  exact hafter.trans (and_iff_left hne)

theorem Inv.revoke_check (h : s.Inv) (hother : ¬Live s.history t p c) :
    (s.manager.revoke t).check p c = s.manager.check p c := by
  refine except_congr (fun _ ↦ check_error) (fun _ ↦ check_error) fun _ ↦ ?_
  have hafter := (inv_revoke h t).check_ok_iff (p := p) (c := c)
  refine (hafter.trans ?_).trans h.check_ok_iff.symm
  refine exists_congr fun t' ↦ live_revoke.trans (and_iff_left_of_imp ?_)
  rintro hlive rfl
  exact hother hlive

theorem Inv.revoke_unknown (h : s.Inv) (hnone : ∀ p c, ¬Live s.history t p c) :
    s.manager.revoke t = s.manager := by
  have hall : ∀ e ∈ s.manager.issued, e.token ≠ t := by
    rintro ⟨t', p, c⟩ he rfl
    exact hnone p c ((h.live _ p c).mp he)
  rw [h.revoke_eq, List.filter_eq_self.mpr fun e he ↦ decide_eq_true (hall e he)]

theorem Inv.count (h : s.Inv) :
    s.manager.capabilityCount = {t | ∃ p c, Live s.history t p c}.ncard := by
  have hset : {t | ∃ p c, Live s.history t p c}
      = ((s.manager.issued.map Issued.token).toFinset : Set CapabilityToken) := by
    ext t
    rw [Finset.mem_coe, List.mem_toFinset, List.mem_map]
    constructor
    · rintro ⟨p, c, hlive⟩
      exact ⟨⟨t, p, c⟩, (h.live t p c).mpr hlive, rfl⟩
    · rintro ⟨⟨t', p, c⟩, hmem, rfl⟩
      exact ⟨p, c, (h.live t' p c).mp hmem⟩
  rw [hset, Set.ncard_coe_finset, List.toFinset_card_of_nodup h.nodup, List.length_map]
  rfl

end SecuritySys

open SecuritySys in
/-- **Capability tokens refine a finite map.** In every state that clients reach with fewer than
`2 ^ 64` grants, the manager answers as its history says: from the grants that were not revoked. -/
theorem security_refines_map {s : SecuritySys} (hs : machine.system.Reachable s) :
    s.RefinesMap :=
  have h := inv_of_reachable hs
  { grant_fresh := fun _ _ hl ↦ h.grant_fresh hl
    verify_ok_iff := fun _ _ _ ↦ h.verify_ok_iff
    verify_error_iff := fun _ _ ↦ h.verify_error_iff
    check_ok_iff := fun _ _ ↦ h.check_ok_iff
    revoke_verify := fun _ _ _ ↦ h.revoke_verify
    revoke_check := fun _ _ _ ↦ h.revoke_check
    revoke_unknown := fun _ ↦ h.revoke_unknown
    count := h.count }

open SecuritySys in
/-- A token granted and revoked. -/
theorem security_refines_map_revoked :
    ((SecuritySys.new.next (.grant 7 .gpu)).next (.revoke 1)).RefinesMap := by
  have hnew : machine.system.Reachable SecuritySys.new := .init rfl
  have hone : 1 < wordSize := by
    rw [wordSize]
    omega
  have hgranted : machine.system.Reachable (SecuritySys.new.next (.grant 7 .gpu)) :=
    .step (e := .grant 7 .gpu) hnew ⟨hone, rfl⟩
  exact security_refines_map (.step (e := .revoke 1) hgranted ⟨trivial, rfl⟩)

end Zeroxos
