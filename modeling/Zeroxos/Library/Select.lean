import Mathlib.Data.List.Induction

/-!
# Selecting the best element of a list

A loop that looks for the best candidate keeps the best one so far and replaces it only by a
strictly better one. What it ends with is the best candidate of the list, the first of them when
several are equally good. `better` need not be a linear order on the keys: it is enough that it is
asymmetric and that it separates any third key from one of two keys it separates.
-/

namespace Zeroxos

variable {α κ : Type*}

/-- The last value of a loop that keeps the best candidate; `key` is `none` for an element that is
no candidate. -/
def firstBest (key : α → Option κ) (better : κ → κ → Bool) (l : List α) : Option (α × κ) :=
  l.foldl (fun best a ↦ (key a).elim best fun k ↦
    if best.all fun b ↦ better k b.2 then some (a, k) else best) none

/-- `a` is the first of the best candidates of the list, with key `k`. -/
def IsFirstBest (key : α → Option κ) (better : κ → κ → Bool) (l : List α) (a : α) (k : κ) : Prop :=
  key a = some k ∧ ∃ before after, l = before ++ a :: after
    ∧ (∀ b ∈ before, ∀ k' ∈ key b, better k k' = true)
    ∧ ∀ b ∈ after, ∀ k' ∈ key b, better k' k = false

/-! The better of two numbers may be the smaller one. -/

theorem decide_lt_asymm (m n : ℕ) (h : decide (m < n) = true) : decide (n < m) = false :=
  decide_eq_false (Nat.lt_asymm (of_decide_eq_true h))

theorem decide_lt_cotrans (m n p : ℕ) (h : decide (m < n) = true) :
    decide (m < p) = true ∨ decide (p < n) = true := by
  rcases Nat.lt_or_ge m p with hmp | hpm
  · exact .inl (decide_eq_true hmp)
  · exact .inr (decide_eq_true (Nat.lt_of_le_of_lt hpm (of_decide_eq_true h)))

variable {key : α → Option κ} {better : κ → κ → Bool} {l : List α} {a : α} {k : κ}

theorem firstBest_append_singleton (key : α → Option κ) (better : κ → κ → Bool) (l : List α)
    (a : α) :
    firstBest key better (l ++ [a]) = (key a).elim (firstBest key better l) fun k ↦
      if (firstBest key better l).all fun b ↦ better k b.2 then some (a, k)
      else firstBest key better l := by
  rw [firstBest, List.foldl_append, List.foldl_cons, List.foldl_nil]
  rfl

/-- A candidate as good as the rest is left out of the race by whoever came first. -/
private theorem IsFirstBest.concat (h : IsFirstBest key better l a k) {b : α}
    (hb : ∀ k' ∈ key b, better k' k = false) : IsFirstBest key better (l ++ [b]) a k := by
  obtain ⟨hkey, before, after, rfl, hbefore, hafter⟩ := h
  refine ⟨hkey, before, after ++ [b], by simp, hbefore, fun c hc ↦ ?_⟩
  rcases List.mem_append.mp hc with hc | hc
  · exact hafter c hc
  · rw [List.mem_singleton.mp hc]
    exact hb

private theorem IsFirstBest.better_all (hasymm : ∀ a b, better a b = true → better b a = false)
    (hcotrans : ∀ a b c, better a b = true → better a c = true ∨ better c b = true)
    (h : IsFirstBest key better l a k) {k' : κ} (hk' : better k' k = true) :
    ∀ b ∈ l, ∀ kb ∈ key b, better k' kb = true := by
  obtain ⟨hkey, before, after, rfl, hbefore, hafter⟩ := h
  intro b hb kb hkb
  refine (hcotrans k' k kb hk').resolve_right fun hbad ↦ ?_
  rcases List.mem_append.mp hb with hb | hb
  · have := hasymm _ _ (hbefore b hb kb hkb)
    rw [hbad] at this
    cases this
  rcases List.mem_cons.mp hb with rfl | hb
  · rw [hkey] at hkb
    obtain rfl := Option.some.inj hkb
    have := hasymm _ _ hbad
    rw [hbad] at this
    cases this
  · rw [hafter b hb kb hkb] at hbad
    cases hbad

/-- **The loop finds the first of the best candidates**, and finds none only when there is none. -/
theorem firstBest_spec (hasymm : ∀ a b, better a b = true → better b a = false)
    (hcotrans : ∀ a b c, better a b = true → better a c = true ∨ better c b = true) (l : List α) :
    (firstBest key better l = none ∧ ∀ a ∈ l, key a = none)
      ∨ ∃ a k, firstBest key better l = some (a, k) ∧ IsFirstBest key better l a k := by
  induction l using List.reverseRecOn with
  | nil => exact .inl ⟨rfl, nofun⟩
  | append_singleton l b ih =>
    rw [firstBest_append_singleton]
    rcases hkb : key b with _ | kb
    · -- no candidate
      rcases ih with ⟨hnone, hall⟩ | ⟨a, k, hsome, hbest⟩
      · refine .inl ⟨hnone, fun a ha ↦ ?_⟩
        rcases List.mem_append.mp ha with ha | ha
        · exact hall a ha
        · rw [List.mem_singleton.mp ha, hkb]
      · exact .inr ⟨a, k, hsome, hbest.concat (by rw [hkb]; nofun)⟩
    · refine .inr ?_
      rcases ih with ⟨hnone, hall⟩ | ⟨a, k, hsome, hbest⟩
      · refine ⟨b, kb, by rw [hnone]; rfl, hkb, l, [], rfl, fun a ha ↦ ?_, nofun⟩
        rw [hall a ha]
        nofun
      · rw [hsome]
        by_cases hbetter : better kb k = true
        · refine ⟨b, kb, by simp [hbetter], hkb, l, [], rfl, ?_, nofun⟩
          exact hbest.better_all hasymm hcotrans hbetter
        · refine ⟨a, k, by simp [hbetter], hbest.concat fun k' hk' ↦ ?_⟩
          rw [hkb] at hk'
          obtain rfl := Option.some.inj hk'
          exact Bool.eq_false_iff.mpr hbetter

end Zeroxos
