import Mathlib.Data.List.Nodup
import Mathlib.Algebra.Ring.Nat
import Mathlib.Algebra.BigOperators.Group.List.Basic

/-!
# Tables scanned from the front

A small table is a list of entries, each with a key, and every operation walks it from the front to
the first entry with the key it wants. `lookup` is what such a walk finds, and `visit` is a walk
that changes the entry it finds and returns something of it. What a visit did is read off by
looking keys up afterwards, so that the walk itself is looked at only here.
-/

namespace Zeroxos

namespace Table

variable {α β κ : Type*} [DecidableEq κ]

/-- The first entry with the key. -/
def lookup (key : α → κ) (k : κ) (l : List α) : Option α := l.find? fun a ↦ key a = k

/-- Change the first entry with the key, and return what `f` makes of it; `none` is the answer when
there is no such entry. -/
def visit (key : α → κ) (k : κ) (f : α → β × α) (none : β) : List α → β × List α
  | [] => (none, [])
  | a :: l =>
    if key a = k then ((f a).1, (f a).2 :: l)
    else ((visit key k f none l).1, a :: (visit key k f none l).2)

variable {key : α → κ} {k k' : κ} {f : α → β × α} {none : β} {l l' : List α} {a : α}

@[simp] theorem lookup_nil : lookup key k [] = .none := rfl

theorem lookup_cons (a : α) (l : List α) :
    lookup key k (a :: l) = if key a = k then some a else lookup key k l := by
  rw [lookup, List.find?_cons]
  by_cases h : key a = k
  · simp [h]
  · simp [h, lookup]

theorem lookup_append (l l' : List α) :
    lookup key k (l ++ l') = (lookup key k l).or (lookup key k l') := List.find?_append

theorem mem_of_lookup (h : lookup key k l = some a) : a ∈ l := List.mem_of_find?_eq_some h

theorem key_of_lookup (h : lookup key k l = some a) : key a = k := by
  simpa using List.find?_some h

theorem lookup_eq_none : lookup key k l = .none ↔ ∀ a ∈ l, key a ≠ k := by
  simp [lookup]

/-- Where keys are unique, looking up finds whatever entry has the key. -/
theorem lookup_eq_some_iff (hnodup : (l.map key).Nodup) :
    lookup key k l = some a ↔ a ∈ l ∧ key a = k := by
  refine ⟨fun h ↦ ⟨mem_of_lookup h, key_of_lookup h⟩, ?_⟩
  rintro ⟨hmem, rfl⟩
  obtain ⟨b, hb⟩ : ∃ b, lookup key (key a) l = some b := by
    rw [← Option.ne_none_iff_exists', Ne, lookup_eq_none]
    exact fun h ↦ h a hmem rfl
  rw [hb, List.inj_on_of_nodup_map hnodup (mem_of_lookup hb) hmem (key_of_lookup hb)]

theorem lookup_map {g : α → α} (hkey : ∀ a, key (g a) = key a) :
    lookup key k (l.map g) = (lookup key k l).map g := by
  rw [lookup, List.find?_map]
  simp only [Function.comp_def, hkey]
  rfl

theorem visit_fst : (visit key k f none l).1 = (lookup key k l).elim none fun a ↦ (f a).1 := by
  induction l with
  | nil => rfl
  | cons a l ih =>
    rw [visit, lookup_cons]
    by_cases h : key a = k
    · rw [if_pos h, if_pos h]
      rfl
    · rw [if_neg h, if_neg h]
      exact ih

private theorem visit_snd_eq_self (h : ∀ a, lookup key k l = some a → (f a).2 = a) :
    (visit key k f none l).2 = l := by
  induction l with
  | nil => rfl
  | cons a l ih =>
    rw [visit]
    rw [lookup_cons] at h
    by_cases hk : key a = k
    · rw [if_pos hk] at h ⊢
      rw [h a rfl]
    · rw [if_neg hk] at h ⊢
      rw [ih h]

theorem visit_of_lookup_eq_none (h : lookup key k l = .none) :
    visit key k f none l = (none, l) := by
  refine Prod.ext ?_ (visit_snd_eq_self fun a ha ↦ ?_)
  · rw [visit_fst, h]
    rfl
  · rw [h] at ha
    cases ha

theorem visit_of_lookup_eq_some {b : β} (h : lookup key k l = some a) (hf : f a = (b, a)) :
    visit key k f none l = (b, l) := by
  refine Prod.ext ?_ (visit_snd_eq_self fun c hc ↦ ?_)
  · rw [visit_fst, h, Option.elim, hf]
  · rw [h] at hc
    obtain rfl := Option.some.inj hc
    rw [hf]

theorem lookup_visit (hkey : ∀ a, key (f a).2 = key a) :
    lookup key k' (visit key k f none l).2
      = if k' = k then (lookup key k l).map fun a ↦ (f a).2 else lookup key k' l := by
  induction l with
  | nil => simp [visit]
  | cons a l ih =>
    rw [visit, lookup_cons]
    by_cases hk : key a = k
    · rw [if_pos hk, if_pos hk, lookup_cons, hkey, lookup_cons, hk]
      by_cases hk' : k' = k
      · rw [if_pos hk', if_pos hk'.symm]
        rfl
      · rw [if_neg hk', if_neg (Ne.symm hk'), if_neg (Ne.symm hk')]
    · rw [if_neg hk, if_neg hk, lookup_cons, ih, lookup_cons]
      by_cases hk' : k' = k
      · rw [if_pos hk', if_pos hk', hk', if_neg hk]
      · rw [if_neg hk', if_neg hk']

theorem lookup_filter_ne : lookup key k' (l.filter fun a ↦ key a ≠ k)
    = if k' = k then .none else lookup key k' l := by
  induction l with
  | nil => simp
  | cons a l ih =>
    by_cases hk : key a = k
    · have hgone : (a :: l).filter (fun a ↦ key a ≠ k) = l.filter fun a ↦ key a ≠ k :=
        List.filter_cons_of_neg (by simp [hk])
      rw [hgone, ih, lookup_cons, hk]
      by_cases hk' : k' = k
      · rw [if_pos hk', if_pos hk']
      · rw [if_neg hk', if_neg hk', if_neg (Ne.symm hk')]
    · have hkept : (a :: l).filter (fun a ↦ key a ≠ k) = a :: l.filter fun a ↦ key a ≠ k :=
        List.filter_cons_of_pos (by simp [hk])
      rw [hkept, lookup_cons, ih, lookup_cons]
      by_cases hk' : k' = k
      · rw [if_pos hk', if_pos hk', hk', if_neg hk]
      · rw [if_neg hk', if_neg hk']

/-- A visit changes a sum over the table by what it changes at its entry. -/
theorem sum_visit (none : β) (g : α → ℕ) (h : lookup key k l = some a) :
    ((visit key k f none l).2.map g).sum + g a = (l.map g).sum + g (f a).2 := by
  induction l with
  | nil => cases h
  | cons b l ih =>
    rw [lookup_cons] at h
    rw [visit]
    by_cases hk : key b = k
    · rw [if_pos hk] at h ⊢
      obtain rfl := Option.some.inj h
      simp only [List.map_cons, List.sum_cons]
      omega
    · rw [if_neg hk] at h ⊢
      simp only [List.map_cons, List.sum_cons, add_assoc, ih h]

theorem forall_mem_visit {P : α → Prop} (hl : ∀ a ∈ l, P a)
    (h : ∀ a, lookup key k l = some a → P (f a).2) : ∀ a ∈ (visit key k f none l).2, P a := by
  induction l with
  | nil => exact hl
  | cons b l ih =>
    rw [visit]
    rw [lookup_cons] at h
    by_cases hk : key b = k
    · rw [if_pos hk] at h ⊢
      refine List.forall_mem_cons.mpr ⟨h b rfl, fun a ha ↦ hl a (List.mem_cons_of_mem _ ha)⟩
    · rw [if_neg hk] at h ⊢
      refine List.forall_mem_cons.mpr ⟨hl b List.mem_cons_self, ?_⟩
      exact ih (fun a ha ↦ hl a (List.mem_cons_of_mem _ ha)) h

theorem map_key_visit (hkey : ∀ a, key (f a).2 = key a) :
    (visit key k f none l).2.map key = l.map key := by
  induction l with
  | nil => rfl
  | cons a l ih =>
    rw [visit]
    split_ifs
    · rw [List.map_cons, List.map_cons, hkey]
    · rw [List.map_cons, List.map_cons, ih]

/-- Removing the first entry with a key removes the only one, where keys are unique. -/
theorem eraseIdx_findIdx?_eq_filter (hnodup : (l.map key).Nodup) :
    (l.findIdx? fun a ↦ key a = k).elim l l.eraseIdx = l.filter fun a ↦ key a ≠ k := by
  induction l with
  | nil => rfl
  | cons a l ih =>
    obtain ⟨hnotin, hnodup⟩ := List.nodup_cons.mp hnodup
    rw [List.findIdx?_cons]
    by_cases h : key a = k
    · have hall : ∀ b ∈ l, key b ≠ k := by
        intro b hb hbk
        exact hnotin (List.mem_map.mpr ⟨b, hb, hbk.trans h.symm⟩)
      have hself : l.filter (fun a ↦ decide (key a ≠ k)) = l :=
        List.filter_eq_self.mpr fun b hb ↦ decide_eq_true (hall b hb)
      simpa [h] using hself.symm
    · have ih := ih hnodup
      cases hidx : l.findIdx? fun a ↦ key a = k with
      | none =>
        rw [hidx] at ih
        simpa [h, hidx] using ih
      | some i =>
        rw [hidx] at ih
        simpa [h, hidx] using ih

theorem filter_eq_singleton (hnodup : (l.map key).Nodup) (ha : a ∈ l) :
    l.filter (fun b ↦ key b = key a) = [a] := by
  induction l with
  | nil => cases ha
  | cons b l ih =>
    obtain ⟨hnotin, hnodup⟩ := List.nodup_cons.mp hnodup
    rw [List.filter_cons]
    rcases List.mem_cons.mp ha with rfl | hmem
    · have hnil : l.filter (fun b ↦ key b = key a) = [] := by
        refine List.filter_eq_nil_iff.mpr fun b hb hkey ↦ ?_
        exact hnotin (List.mem_map.mpr ⟨b, hb, of_decide_eq_true hkey⟩)
      rw [if_pos (decide_eq_true rfl), hnil]
    · rw [if_neg, ih hnodup hmem]
      intro hkey
      exact hnotin (List.mem_map.mpr ⟨a, hmem, (of_decide_eq_true hkey).symm⟩)

theorem visit_snd_eq_map (hnodup : (l.map key).Nodup) :
    (visit key k f none l).2 = l.map fun a ↦ if key a = k then (f a).2 else a := by
  induction l with
  | nil => rfl
  | cons a l ih =>
    obtain ⟨hnotin, hnodup⟩ := List.nodup_cons.mp hnodup
    rw [visit, List.map_cons]
    by_cases h : key a = k
    · rw [if_pos h, if_pos h]
      refine congrArg _ ((List.map_id l).symm.trans (List.map_congr_left fun b hb ↦ ?_))
      rw [if_neg fun hbk ↦ hnotin (List.mem_map.mpr ⟨b, hb, hbk.trans h.symm⟩), id]
    · rw [if_neg h, if_neg h, ih hnodup]

end Table

end Zeroxos
