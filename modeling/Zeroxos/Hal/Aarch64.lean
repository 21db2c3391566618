import Mathlib.Data.List.Range
import Zeroxos.Library.Rust

/-!
# The HAL on ARM64

Two parts of the ARM64 HAL have arithmetic in them: the cache routines and the clock.

## Cache maintenance

The routines walk a range of addresses in steps of a line and issue one instruction at each address
on the way, which acts on the line the address is in. The walk begins at the address it is given,
not at the line of that address, so it makes as many steps as a range of that length needs when it
begins a line. Whether the last line is among them is a condition on the two ends
(`cache_range_iff`), the same for both routines, which differ in the instruction only.

## Time

`read_time_ns` converts the counter of the Generic Timer, and its frequency, to nanoseconds. The
conversion multiplies first, in a word that saturates, so that the clock is exact until it stops
(`read_time_iff`). The registers of the processor are read as values that a call is given.
-/

namespace Zeroxos

/-! ## Cache maintenance -/

/-- The instructions that the cache routines issue. -/
inductive CacheInstr
  /-- `dc cvau`: clean the line of the address to the point of unification. -/
  | dcCvau (addr : ℕ)
  /-- `dc ivac`: invalidate the line of the address. -/
  | dcIvac (addr : ℕ)
  | dsbIsh
deriving DecidableEq, Repr

/-- The step of the loops. -/
def cacheLine : ℕ := 64

/-- The loop of `flush_cache` and `invalidate_cache`, for at most so many rounds. -/
def cacheLoop (op : ℕ → CacheInstr) (stop : ℕ) : ℕ → ℕ → Option (List CacheInstr)
  | 0, _ => none
  | fuel + 1, a =>
    if a < stop then (cacheLoop op stop fuel (wadd a cacheLine)).map (op a :: ·) else some []

/-- The loop over `[addr, addr + size)` and the barrier after it, as the instructions issued. A loop
that has not ended after `2 ^ 64` rounds has met an address twice and never ends. -/
def maintainCache (op : ℕ → CacheInstr) (addr size : ℕ) : Option (List CacheInstr) :=
  (cacheLoop op (wadd addr size) wordSize addr).map (· ++ [.dsbIsh])

def flushCache (addr size : ℕ) : Option (List CacheInstr) := maintainCache .dcCvau addr size

def invalidateCache (addr size : ℕ) : Option (List CacheInstr) := maintainCache .dcIvac addr size

/-- The line has a byte of `[addr, addr + size)` in it. -/
def Intersects (addr size line : ℕ) : Prop :=
  ∃ x, addr ≤ x ∧ x < addr + size ∧ x / cacheLine = line

/-- The instructions include one for the line. -/
def Treats (op : ℕ → CacheInstr) (l : List CacheInstr) (line : ℕ) : Prop :=
  ∃ a, op a ∈ l ∧ a / cacheLine = line

/-- **The range is covered**: the routine returns, and has issued its instruction for every line of
the range. -/
def Covers (op : ℕ → CacheInstr) (addr size : ℕ) (issued : Option (List CacheInstr)) : Prop :=
  ∃ l, issued = some l ∧ ∀ line, Intersects addr size line → Treats op l line

variable {op : ℕ → CacheInstr} {addr size stop a line fuel : ℕ}

theorem cacheLoop_eq (hstop : stop + cacheLine ≤ wordSize)
    (hfuel : (stop - a + 63) / cacheLine < fuel) :
    cacheLoop op stop fuel a
      = some ((List.range' a ((stop - a + 63) / cacheLine) cacheLine).map op) := by
  rw [cacheLine] at *
  induction fuel generalizing a with
  | zero => exact absurd hfuel (Nat.not_lt_zero _)
  | succ fuel ih =>
    rw [cacheLoop]
    split_ifs with ha
    · have hstep : wadd a cacheLine = a + 64 := wadd_of_lt (by rw [cacheLine]; omega)
      have hrounds : (stop - a + 63) / 64 = (stop - (a + 64) + 63) / 64 + 1 := by omega
      rw [hstep, ih (by omega), hrounds, List.range'_succ, List.map_cons, Option.map_some]
    · have hrounds : (stop - a + 63) / 64 = 0 := by omega
      rw [hrounds]
      rfl

/-- **The routine returns**, and issues its instruction once for each line that a range of that size
would have if it began one. -/
theorem maintainCache_eq (h : addr + size ≤ 2 ^ 64 - 64) :
    maintainCache op addr size = some
      ((List.range' addr ((size + 63) / cacheLine) cacheLine).map op ++ [.dsbIsh]) := by
  have hstop : wadd addr size = addr + size := wadd_of_lt (by rw [wordSize]; omega)
  rw [maintainCache, hstop, cacheLoop_eq, Nat.add_sub_cancel_left, Option.map_some]
  · rw [cacheLine, wordSize]
    omega
  · rw [cacheLine, wordSize]
    omega

/-- The lines that are treated: as many as there are rounds, from that of the first address on. -/
theorem treats_iff (hinj : op.Injective) (hop : ∀ a, op a ≠ .dsbIsh) {rounds : ℕ} :
    Treats op ((List.range' addr rounds cacheLine).map op ++ [.dsbIsh]) line ↔
      addr / cacheLine ≤ line ∧ line < addr / cacheLine + rounds := by
  have hmem : ∀ a, op a ∈ (List.range' addr rounds cacheLine).map op ++ [.dsbIsh] ↔
      ∃ i < rounds, a = addr + cacheLine * i := by
    intro a
    rw [List.mem_append, List.mem_map_of_injective hinj, List.mem_range', List.mem_singleton,
      or_iff_left (hop a)]
  have hline : ∀ i, (addr + cacheLine * i) / cacheLine = addr / cacheLine + i := fun i ↦
    Nat.add_mul_div_left addr i (by decide)
  constructor
  · rintro ⟨a, ha, rfl⟩
    obtain ⟨i, hi, rfl⟩ := (hmem a).mp ha
    rw [hline]
    exact ⟨Nat.le_add_right _ i, Nat.add_lt_add_left hi _⟩
  · rintro ⟨hlo, hhi⟩
    obtain ⟨i, rfl⟩ := Nat.exists_eq_add_of_le hlo
    exact ⟨_, (hmem _).mpr ⟨i, Nat.lt_of_add_lt_add_left hhi, rfl⟩, hline i⟩

/-- **Which ranges are covered**, whatever the instruction. -/
theorem covers_maintainCache_iff (hinj : op.Injective) (hop : ∀ a, op a ≠ .dsbIsh)
    (h : addr + size ≤ 2 ^ 64 - 64) :
    Covers op addr size (maintainCache op addr size) ↔
      addr % cacheLine + (size - 1) % cacheLine < cacheLine := by
  rw [Covers, maintainCache_eq h]
  simp only [Option.some.injEq, exists_eq_left', treats_iff hinj hop]
  unfold Intersects cacheLine
  constructor
  · intro hcovered
    rcases Nat.eq_zero_or_pos size with rfl | hpos
    · omega
    · -- the line of the last byte is the one that may be missed
      have hlast := (hcovered _ ⟨addr + size - 1, by omega, by omega, rfl⟩).2
      omega
  · rintro hoffset line ⟨x, hlo, hhi, rfl⟩
    omega

theorem dcCvau_covers_iff (h : addr + size ≤ 2 ^ 64 - 64) :
    Covers .dcCvau addr size (flushCache addr size) ↔
      addr % cacheLine + (size - 1) % cacheLine < cacheLine :=
  covers_maintainCache_iff (fun _ _ ↦ CacheInstr.dcCvau.inj) (fun _ ↦ by nofun) h

theorem dcIvac_covers_iff (h : addr + size ≤ 2 ^ 64 - 64) :
    Covers .dcIvac addr size (invalidateCache addr size) ↔
      addr % cacheLine + (size - 1) % cacheLine < cacheLine :=
  covers_maintainCache_iff (fun _ _ ↦ CacheInstr.dcIvac.inj) (fun _ ↦ by nofun) h

/-- **Cache maintenance.** Both routines return. Each treats every line of the range exactly when
the offset of the address in its line, and that of the last byte from the address taken modulo a
line, do not add up to another line. -/
theorem cache_range_iff (h : addr + size ≤ 2 ^ 64 - 64) :
    ((∃ l, flushCache addr size = some l) ∧ ∃ l, invalidateCache addr size = some l) ∧
      (Covers .dcCvau addr size (flushCache addr size) ↔
        addr % cacheLine + (size - 1) % cacheLine < cacheLine) ∧
      (Covers .dcIvac addr size (invalidateCache addr size) ↔
        addr % cacheLine + (size - 1) % cacheLine < cacheLine) :=
  ⟨⟨⟨_, maintainCache_eq h⟩, _, maintainCache_eq h⟩, dcCvau_covers_iff h, dcIvac_covers_iff h⟩

/-- A page that begins a line. -/
theorem cache_range_iff_page :
    ((∃ l, flushCache 0x1000 0x1000 = some l) ∧ ∃ l, invalidateCache 0x1000 0x1000 = some l) ∧
      (Covers .dcCvau 0x1000 0x1000 (flushCache 0x1000 0x1000) ↔
        0x1000 % cacheLine + (0x1000 - 1) % cacheLine < cacheLine) ∧
      (Covers .dcIvac 0x1000 0x1000 (invalidateCache 0x1000 0x1000) ↔
        0x1000 % cacheLine + (0x1000 - 1) % cacheLine < cacheLine) :=
  cache_range_iff (by decide)

/-- **A line is skipped**: eight bytes that lie across the boundary of two lines, of which only the
first is treated. -/
theorem second_line_skipped : flushCache 0x103c 8 = some [.dcCvau 0x103c, .dsbIsh] ∧
    ¬Covers .dcCvau 0x103c 8 (flushCache 0x103c 8) ∧
      ¬Covers .dcIvac 0x103c 8 (invalidateCache 0x103c 8) := by
  have hskipped : ¬0x103c % cacheLine + (8 - 1) % cacheLine < cacheLine := by decide
  refine ⟨?_, (dcCvau_covers_iff (by decide)).not.mpr hskipped,
    (dcIvac_covers_iff (by decide)).not.mpr hskipped⟩
  rw [flushCache, maintainCache_eq (by decide)]
  rfl

/-! ## Time -/

def saturatingMul (a b : ℕ) : ℕ := min (a * b) (wordSize - 1)

/-- `read_time_ns`, when the counter shows `count` and its frequency is `freq`. -/
def readTimeNs (count freq : ℕ) : ℕ :=
  if freq = 0 then count else saturatingMul count 1000000000 / freq

def readTimeUs (count freq : ℕ) : ℕ := readTimeNs count freq / 1000

def readTimeMs (count freq : ℕ) : ℕ := readTimeNs count freq / 1000000

/-- The nanoseconds that `count` ticks take, rounded down. -/
def exactNs (count freq : ℕ) : ℕ := count * 1000000000 / freq

/-- The time at which the clock stops. -/
def stoppedNs (freq : ℕ) : ℕ := (wordSize - 1) / freq

variable {count count' freq : ℕ}

/-- The clock is exact until it stops. -/
theorem readTimeNs_eq (hfreq : 0 < freq) :
    readTimeNs count freq = min (exactNs count freq) (stoppedNs freq) := by
  have hmono : Monotone (· / freq) := fun _ _ h ↦ Nat.div_le_div_right h
  rw [readTimeNs, if_neg hfreq.ne', saturatingMul, exactNs, stoppedNs]
  exact hmono.map_min

theorem readTimeNs_mono (hfreq : 0 < freq) (h : count ≤ count') :
    readTimeNs count freq ≤ readTimeNs count' freq := by
  rw [readTimeNs_eq hfreq, readTimeNs_eq hfreq]
  exact min_le_min_right _ (Nat.div_le_div_right (Nat.mul_le_mul_right _ h))

theorem readTimeNs_eq_exactNs_iff (hfreq : 0 < freq) :
    readTimeNs count freq = exactNs count freq ↔
      count * 1000000000 < freq * (stoppedNs freq + 1) := by
  rw [readTimeNs_eq hfreq, min_eq_left_iff, exactNs, ← Nat.lt_succ_iff, Nat.div_lt_iff_lt_mul hfreq,
    mul_comm freq]

/-- The readings in micro- and milliseconds round the exact time as well. -/
theorem readTime_coarser (hfreq : 0 < freq)
    (h : count * 1000000000 < freq * (stoppedNs freq + 1)) :
    readTimeUs count freq = count * 1000000 / freq ∧
      readTimeMs count freq = count * 1000 / freq := by
  have hus : count * 1000000000 = count * 1000000 * 1000 := by ring
  have hms : count * 1000000000 = count * 1000 * 1000000 := by ring
  rw [readTimeUs, readTimeMs, (readTimeNs_eq_exactNs_iff hfreq).mpr h, exactNs,
    Nat.div_div_eq_div_mul, Nat.div_div_eq_div_mul]
  constructor
  · rw [hus, Nat.mul_div_mul_right _ _ (by decide)]
  · rw [hms, Nat.mul_div_mul_right _ _ (by decide)]

theorem exactNs_lt (hfreq : 0 < freq) (h : count + (freq / 1000000000 + 1) ≤ count') :
    exactNs count freq < exactNs count' freq := by
  rw [exactNs, exactNs, Nat.lt_iff_add_one_le, ← Nat.add_div_right _ hfreq]
  refine Nat.div_le_div_right ?_
  omega

/-- **The clock of ARM64.** A reading is exact exactly as long as the product of the counter and a
billion is below the first multiple of the frequency past the largest word; and of two readings far
enough apart the second is later exactly as long as the first product is below the last multiple of
the frequency that is a word. -/
theorem read_time_iff (hfreq : 0 < freq) :
    (∀ count, readTimeNs count freq = exactNs count freq ↔
      count * 1000000000 < freq * (stoppedNs freq + 1)) ∧
    ∀ count count', count + (freq / 1000000000 + 1) ≤ count' →
      (readTimeNs count freq < readTimeNs count' freq ↔
        count * 1000000000 < freq * stoppedNs freq) := by
  refine ⟨fun count ↦ readTimeNs_eq_exactNs_iff hfreq, fun count count' h ↦ ?_⟩
  have hlt := exactNs_lt hfreq h
  have hstopped : exactNs count freq < stoppedNs freq ↔
      count * 1000000000 < freq * stoppedNs freq := by
    rw [exactNs, Nat.div_lt_iff_lt_mul hfreq, mul_comm freq]
  rw [readTimeNs_eq hfreq, readTimeNs_eq hfreq, ← hstopped]
  omega

/-- A counter at 62.5 MHz. -/
theorem read_time_iff_counter :
    (∀ count, readTimeNs count 62500000 = exactNs count 62500000 ↔
      count * 1000000000 < 62500000 * (stoppedNs 62500000 + 1)) ∧
    ∀ count count', count + (62500000 / 1000000000 + 1) ≤ count' →
      (readTimeNs count 62500000 < readTimeNs count' 62500000 ↔
        count * 1000000000 < 62500000 * stoppedNs 62500000) :=
  read_time_iff (by decide)

/-- **The clock stops.** After five minutes at 62.5 MHz it shows too little, and an hour later it
shows the same. -/
theorem clock_stops :
    exactNs 18750000000 62500000 = 300000000000 ∧ readTimeNs 18750000000 62500000 = 295147905179 ∧
      exactNs 243750000000 62500000 < wordSize ∧
        readTimeNs 243750000000 62500000 = readTimeNs 18750000000 62500000 := by
  decide

end Zeroxos
