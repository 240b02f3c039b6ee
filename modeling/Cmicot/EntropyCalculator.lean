import Cmicot.FrequencyCounter

/-!
The incremental entropy calculator (`entropy_calculator.h`, `entropy_calculator.cpp`).

A `TEntropyCalculator` keeps one packed code per row. `TEntropyCalculator.Packs` is the
representation invariant: the calculator holds the codes of the bins added so far.
Everything else is read off it.

* `countersInRange_iff`: when no counter is indexed out of range.
* `incremental_entropy_eq`: both entropies are the joint empirical entropy of the bins.
-/

namespace Cmicot

open Loop

/-! ### Definitions -/

/-- `static constexpr int MAX_BIN_COUNT = 64`. -/
def maxBinCount : ℕ := 64

structure TEntropyCalculator where
  binCount : ℕ
  values : List UInt64

namespace TEntropyCalculator

/-- `TEntropyCalculator(size_t binSize)`. -/
def ofSize (binSize : ℕ) : TEntropyCalculator := ⟨0, List.replicate binSize 0⟩

def addBin (ec : TEntropyCalculator) (bin : TBin) : Except Failure TEntropyCalculator :=
  if bin.length ≠ ec.values.length then .error (.binSize ec.values.length bin.length)
  else if ¬ ec.binCount + 1 ≤ maxBinCount then .error .tooManyBins
  else .ok ⟨ec.binCount + 1, List.zipWith pushBit ec.values bin⟩

/-- The counter `GetEntropy` counts with. -/
def counter (ec : TEntropyCalculator) : Except Failure IFrequencyCounter := do
  let (low, high) ← minMaxElement ec.values
  return buildFrequencyCounter low high

/-- The counter `GetEntropyWithExtraBin` counts with. -/
def extraCounter (ec : TEntropyCalculator) : Except Failure IFrequencyCounter := do
  let (low, high) ← minMaxElement ec.values
  return buildFrequencyCounter (2 * low) (2 * high + 1)

/-- The values `2 * Values[i] + bin[i]` passed to the counter for an extra bin. -/
def extraValues (ec : TEntropyCalculator) (bin : TBin) : List UInt64 :=
  List.zipWith (fun value bit => 2 * value + bit.toUInt64) ec.values bin

section Generic

variable {R : Type} [Field R] [Log2 R]

def getEntropy (ec : TEntropyCalculator) : Except Failure R := do
  countWith (← ec.counter) ec.values

def getEntropyWithExtraBin (ec : TEntropyCalculator) (bin : TBin) : Except Failure R := do
  if bin.length ≠ ec.values.length then
    throw (.binSize ec.values.length bin.length)
  countWith (← ec.extraCounter) (ec.extraValues bin)

end Generic

/-- A sequence of `AddBin` calls on a fresh calculator. -/
def addBins (binSize : ℕ) (bins : List TBin) : Except Failure TEntropyCalculator :=
  bins.foldlM addBin (ofSize binSize)

end TEntropyCalculator

/-! ### The calculator holds the codes of its bins -/

namespace TEntropyCalculator

/-- The representation invariant: the calculator holds the codes of `bins` over `n` rows. -/
structure Packs (ec : TEntropyCalculator) (n : ℕ) (bins : List TBin) : Prop where
  binCount : ec.binCount = bins.length
  values : ec.values = codes n bins
  length : ∀ bin ∈ bins, bin.length = n

variable {ec : TEntropyCalculator} {n : ℕ} {bins : List TBin} {bin : TBin}

theorem ofSize_packs (n : ℕ) : (ofSize n).Packs n [] :=
  ⟨rfl, (codes_nil n).symm, by simp⟩

theorem Packs.addBin (held : ec.Packs n bins) (length : bin.length = n) (room : bins.length < 64) :
    ∃ ec', ec.addBin bin = .ok ec' ∧ ec'.Packs n (bins ++ [bin]) := by
  refine ⟨⟨ec.binCount + 1, List.zipWith pushBit ec.values bin⟩, ?_, ?_, ?_, ?_⟩
  · have := held.binCount
    simp only [TEntropyCalculator.addBin, held.values, codes_length, length, ne_eq, not_true, if_false,
      maxBinCount]
    rw [if_neg (by omega)]
  · simp [held.binCount]
  · simp only [held.values]
    exact zipWith_pushBit_codes bins length
  · intro b hb
    rcases List.mem_append.mp hb with hb | hb
    · exact held.length b hb
    · rw [List.mem_singleton.mp hb, length]

theorem addBins_packs (length : ∀ bin ∈ bins, bin.length = n) (admitted : bins.length ≤ 64) :
    ∃ ec, addBins n bins = .ok ec ∧ ec.Packs n bins :=
  foldlM_ok (P := fun done (ec : TEntropyCalculator) => ec.Packs n done) (ofSize_packs n)
    fun _ bin _ mem short held => held.addBin (length bin mem) (by omega)

theorem bool_toUInt64_toNat (bit : Bool) : bit.toUInt64.toNat = bit.toNat := by
  cases bit <;> rfl

/-- With room for one more bin, the values of an extra bin are the codes of the extended rows. -/
theorem Packs.extraValues (held : ec.Packs n bins) (length : bin.length = n) (room : bins.length < 64) :
    ec.extraValues bin = codes n (bins ++ [bin]) := by
  rw [← zipWith_pushBit_codes bins length, TEntropyCalculator.extraValues, held.values]
  apply List.ext_getElem
  · simp
  · intro i h _
    rw [List.getElem_zipWith, List.getElem_zipWith, codes_getElem]
    apply UInt64.toNat_inj.mp
    have small := toNat_rowCode (show (row bins i).length ≤ 64 by simp; omega)
    have bound := bitsValue_lt (row bins i)
    have fits : 2 ^ (row bins i).length ≤ 2 ^ 63 := Nat.pow_le_pow_right (by decide) (by simp; omega)
    rw [toNat_pushBit, UInt64.toNat_add, UInt64.toNat_mul, bool_toUInt64_toNat, small]
    simp

/-- Some row has this value on every bin. -/
def HasConstantRow (n : ℕ) (bins : List TBin) (value : Bool) : Prop :=
  ∃ i < n, ∀ bin ∈ bins, bin.getD i false = value

instance (n : ℕ) (bins : List TBin) (value : Bool) : Decidable (HasConstantRow n bins value) :=
  inferInstanceAs (Decidable (∃ i < n, _))

theorem bitsValue_replicate_false (k : ℕ) : bitsValue (List.replicate k false) = 0 := by
  induction k with
  | zero => rfl
  | succ k ih => rw [List.replicate_succ', bitsValue_concat, ih]; rfl

theorem bitsValue_replicate_true (k : ℕ) : bitsValue (List.replicate k true) = 2 ^ k - 1 := by
  induction k with
  | zero => rfl
  | succ k ih =>
    have := Nat.two_pow_pos k
    rw [List.replicate_succ', bitsValue_concat, ih, Bool.toNat_true, Nat.pow_succ]
    omega

/-- The code of a row is that of a constant row iff the row is constant. -/
theorem bitsValue_row_eq_iff {i : ℕ} {value : Bool} :
    bitsValue (row bins i) = bitsValue (List.replicate bins.length value) ↔
      ∀ bin ∈ bins, bin.getD i false = value := by
  constructor
  · intro same bin mem
    have := bitsValue_inj (by simp) same
    rw [List.eq_replicate_iff] at this
    exact this.2 _ (List.mem_map_of_mem mem)
  · intro const
    congr 1
    rw [List.eq_replicate_iff]
    exact ⟨by simp, fun b hb => by obtain ⟨bin, mem, rfl⟩ := List.mem_map.mp hb; exact const bin mem⟩

/-- A code value occurs in the column iff a row with that code does. -/
theorem mem_codes {v : UInt64} : v ∈ codes n bins ↔ ∃ i < n, rowCode (row bins i) = v := by
  simp [codes]

theorem codes_ne_nil (pos : 0 < n) : codes n bins ≠ [] :=
  List.ne_nil_of_length_pos (by simpa using pos)

/-- The least code is 0 iff a row is 0 on every bin. -/
theorem low_eq_zero_iff (few : bins.length ≤ 64) {low : UInt64} (mem : low ∈ codes n bins)
    (least : ∀ v ∈ codes n bins, low ≤ v) : low.toNat = 0 ↔ HasConstantRow n bins false := by
  constructor
  · intro zero
    obtain ⟨i, hi, rfl⟩ := mem_codes.mp mem
    rw [toNat_rowCode (by simpa using few), ← bitsValue_replicate_false bins.length] at zero
    exact ⟨i, hi, bitsValue_row_eq_iff.mp zero⟩
  · rintro ⟨i, hi, const⟩
    have := UInt64.le_iff_toNat_le.mp (least _ (mem_codes.mpr ⟨i, hi, rfl⟩))
    rw [toNat_rowCode (by simpa using few), bitsValue_row_eq_iff.mpr const,
      bitsValue_replicate_false] at this
    omega

/-- The greatest code is all ones iff a row is 1 on every bin. -/
theorem high_eq_max_iff (few : bins.length ≤ 64) {high : UInt64} (mem : high ∈ codes n bins)
    (greatest : ∀ v ∈ codes n bins, v ≤ high) :
    high.toNat = 2 ^ bins.length - 1 ↔ HasConstantRow n bins true := by
  constructor
  · intro top
    obtain ⟨i, hi, rfl⟩ := mem_codes.mp mem
    rw [toNat_rowCode (by simpa using few), ← bitsValue_replicate_true bins.length] at top
    exact ⟨i, hi, bitsValue_row_eq_iff.mp top⟩
  · rintro ⟨i, hi, const⟩
    obtain ⟨k, -, rfl⟩ := mem_codes.mp mem
    have below := UInt64.le_iff_toNat_le.mp (greatest _ (mem_codes.mpr ⟨i, hi, rfl⟩))
    have bound := bitsValue_lt (row bins k)
    rw [toNat_rowCode (by simpa using few), toNat_rowCode (by simpa using few),
      bitsValue_row_eq_iff.mpr const, bitsValue_replicate_true] at below
    rw [toNat_rowCode (by simpa using few)]
    rw [row_length] at bound
    omega

/-- The codes reach from 0 to all ones of `m` bits iff there are `m` bins, a row that is 0
on all of them and a row that is 1 on all of them. -/
theorem extremes_iff {m : ℕ} (few : bins.length ≤ m) (word : m ≤ 64) {low high : UInt64}
    (memLow : low ∈ codes n bins) (memHigh : high ∈ codes n bins)
    (between : ∀ v ∈ codes n bins, low ≤ v ∧ v ≤ high) :
    low.toNat = 0 ∧ high.toNat = 2 ^ m - 1 ↔
      bins.length = m ∧ HasConstantRow n bins false ∧ HasConstantRow n bins true := by
  rw [← low_eq_zero_iff (by omega) memLow fun v hv => (between v hv).1,
    ← high_eq_max_iff (by omega) memHigh fun v hv => (between v hv).2]
  constructor
  · rintro ⟨zero, top⟩
    have full : bins.length = m := by
      by_contra fewer
      obtain ⟨k, -, rfl⟩ := mem_codes.mp memHigh
      have bound := bitsValue_lt (row bins k)
      rw [← toNat_rowCode (by simp; omega), row_length, top] at bound
      have step : 2 ^ (bins.length + 1) ≤ 2 ^ m := Nat.pow_le_pow_right (by decide) (by omega)
      have := Nat.two_pow_pos bins.length
      rw [Nat.pow_succ] at step
      omega
    exact ⟨full, zero, by rw [full]; exact top⟩
  · rintro ⟨full, zero, top⟩
    exact ⟨zero, by rw [full] at top; exact top⟩

/-- The range `GetEntropy` builds its counter for. -/
theorem Packs.range (held : ec.Packs n bins) (pos : 0 < n) (few : bins.length ≤ 64) :
    ∃ low high, minMaxElement ec.values = .ok (low, high) ∧
      (∀ v ∈ ec.values, low ≤ v ∧ v ≤ high) ∧
      (low.toNat = 0 ∧ high.toNat = 2 ^ 64 - 1 ↔
        bins.length = 64 ∧ HasConstantRow n bins false ∧ HasConstantRow n bins true) := by
  obtain ⟨low, high, found, memLow, memHigh, between⟩ :=
    minMaxElement_spec (show codes n bins ≠ [] from codes_ne_nil pos)
  rw [held.values]
  exact ⟨low, high, found, between, extremes_iff few (Nat.le_refl 64) memLow memHigh between⟩

/-- Doubling a code of at most 63 bins does not wrap. -/
theorem toNat_two_mul_add {v : UInt64} (small : v.toNat < 2 ^ 63) (bit : Bool) :
    (2 * v + bit.toUInt64).toNat = 2 * v.toNat + bit.toNat := by
  have := Bool.toNat_le bit
  rw [UInt64.toNat_add, UInt64.toNat_mul, bool_toUInt64_toNat, show UInt64.toNat 2 = 2 from rfl,
    Nat.mod_eq_of_lt (show 2 * v.toNat < 2 ^ 64 by omega), Nat.mod_eq_of_lt (by omega)]

theorem code_lt {v : UInt64} (few : bins.length ≤ 63) (mem : v ∈ codes n bins) : v.toNat < 2 ^ 63 := by
  obtain ⟨i, -, rfl⟩ := mem_codes.mp mem
  have bound := bitsValue_lt (row bins i)
  have fits : 2 ^ bins.length ≤ 2 ^ 63 := Nat.pow_le_pow_right (by decide) few
  rw [toNat_rowCode (by simp; omega)]
  rw [row_length] at bound
  omega

/-- The range `GetEntropyWithExtraBin` builds its counter for. -/
theorem Packs.extraRange (held : ec.Packs n bins) (pos : 0 < n) (few : bins.length ≤ 63)
    (bin : TBin) :
    ∃ low high, minMaxElement ec.values = .ok (low, high) ∧
      (∀ v ∈ ec.extraValues bin, 2 * low ≤ v ∧ v ≤ 2 * high + 1) ∧
      ((2 * low).toNat = 0 ∧ (2 * high + 1).toNat = 2 ^ 64 - 1 ↔
        bins.length = 63 ∧ HasConstantRow n bins false ∧ HasConstantRow n bins true) := by
  obtain ⟨low, high, found, memLow, memHigh, between⟩ :=
    minMaxElement_spec (show codes n bins ≠ [] from codes_ne_nil pos)
  have lowNat : (2 * low).toNat = 2 * low.toNat := by
    have small := code_lt few memLow
    rw [UInt64.toNat_mul, show UInt64.toNat 2 = 2 from rfl, Nat.mod_eq_of_lt (by omega)]
  have highNat : (2 * high + 1).toNat = 2 * high.toNat + 1 :=
    toNat_two_mul_add (code_lt few memHigh) true
  refine ⟨low, high, by rw [held.values, found], fun v hv => ?_, ?_⟩
  · obtain ⟨i, hi, rfl⟩ := List.mem_iff_getElem.mp hv
    obtain ⟨inside, inBin⟩ : i < (codes n bins).length ∧ i < bin.length := by
      simp only [TEntropyCalculator.extraValues, List.length_zipWith, held.values] at hi
      omega
    have mem := List.getElem_mem inside
    obtain ⟨above, below⟩ := between _ mem
    simp only [TEntropyCalculator.extraValues, List.getElem_zipWith, held.values]
    have nat := toNat_two_mul_add (code_lt few mem) bin[i]
    have bit := Bool.toNat_le bin[i]
    rw [UInt64.le_iff_toNat_le] at above below
    rw [UInt64.le_iff_toNat_le, UInt64.le_iff_toNat_le, nat, lowNat, highNat]
    omega
  · rw [← extremes_iff few (by decide) memLow memHigh between, lowNat, highNat]
    omega

theorem Packs.values_ne_nil (held : ec.Packs n bins) (pos : 0 < n) : ec.values ≠ [] := by
  rw [held.values]
  exact codes_ne_nil pos

theorem Packs.extraValues_ne_nil (held : ec.Packs n bins) (pos : 0 < n) (length : bin.length = n) :
    ec.extraValues bin ≠ [] := by
  apply List.ne_nil_of_length_pos
  simp [TEntropyCalculator.extraValues, held.values, length, pos]

/-! ### Range safety -/

/-- Every value passed to the counter of `GetEntropy`, and with at most 63 bins to that of
`GetEntropyWithExtraBin` for any extra bin, is in range for it. -/
def CountersInRange (n : ℕ) (bins : List TBin) : Prop :=
  ∃ ec, addBins n bins = .ok ec ∧
    (∃ c, ec.counter = .ok c ∧ ∀ v ∈ ec.values, c.InRange v) ∧
    (bins.length ≤ 63 → ∀ bin : TBin, bin.length = n →
      ∃ c, ec.extraCounter = .ok c ∧ ∀ v ∈ ec.extraValues bin, c.InRange v)

theorem Packs.counter_inRange (held : ec.Packs n bins) (pos : 0 < n) (few : bins.length ≤ 64) :
    ∃ c, ec.counter = .ok c ∧ ((∀ v ∈ ec.values, c.InRange v) ↔
      ¬ (bins.length = 64 ∧ HasConstantRow n bins false ∧ HasConstantRow n bins true)) := by
  obtain ⟨low, high, found, between, wraps⟩ := held.range pos few
  refine ⟨buildFrequencyCounter low high, by simp [counter, found], ?_⟩
  rw [← wraps, inRange_all_iff (held.values_ne_nil pos) between]

/-- The range condition of an extra bin does not depend on that bin. -/
theorem Packs.extraCounter_inRange (held : ec.Packs n bins) (pos : 0 < n) (few : bins.length ≤ 63)
    (length : bin.length = n) :
    ∃ c, ec.extraCounter = .ok c ∧ ((∀ v ∈ ec.extraValues bin, c.InRange v) ↔
      ¬ (bins.length = 63 ∧ HasConstantRow n bins false ∧ HasConstantRow n bins true)) := by
  obtain ⟨low, high, found, between, wraps⟩ := held.extraRange pos few bin
  refine ⟨buildFrequencyCounter (2 * low) (2 * high + 1), by simp [extraCounter, found], ?_⟩
  rw [← wraps, inRange_all_iff (held.extraValues_ne_nil pos length) between]

/-- **When the counters stay in range**: always below 63 bins, and with 63 or 64 bins
unless one row is 0 on all of them and another is 1 on all of them. -/
theorem countersInRange_iff (pos : 0 < n) (length : ∀ bin ∈ bins, bin.length = n)
    (admitted : bins.length ≤ maxBinCount) :
    CountersInRange n bins ↔
      ¬ (63 ≤ bins.length ∧ HasConstantRow n bins false ∧ HasConstantRow n bins true) := by
  obtain ⟨ec, added, held⟩ := addBins_packs length admitted
  obtain ⟨c, built, inRange⟩ := held.counter_inRange pos admitted
  constructor
  · rintro ⟨ec', added', ⟨c', built', inRange'⟩, extra⟩ ⟨many, zeros, ones⟩
    obtain rfl : ec = ec' := Except.ok.inj (added.symm.trans added')
    obtain rfl : c = c' := Except.ok.inj (built.symm.trans built')
    by_cases full : bins.length = 64
    · exact inRange.mp inRange' ⟨full, zeros, ones⟩
    · -- 63 bins: the extra bin wraps the range
      have few : bins.length ≤ 63 := by
        have : bins.length ≤ 64 := admitted
        omega
      have size : (List.replicate n false).length = n := List.length_replicate ..
      obtain ⟨c, built, iff⟩ := held.extraCounter_inRange pos few size
      obtain ⟨c', built', inRange'⟩ := extra few _ size
      obtain rfl : c = c' := Except.ok.inj (built.symm.trans built')
      exact iff.mp inRange' ⟨by omega, zeros, ones⟩
  · intro fine
    refine ⟨ec, added, ⟨c, built, inRange.mpr fun h => fine ⟨by omega, h.2⟩⟩, fun few bin size => ?_⟩
    obtain ⟨c, built, iff⟩ := held.extraCounter_inRange pos few size
    exact ⟨c, built, iff.mpr fun h => fine ⟨by omega, h.2⟩⟩

/-- Three bins on two rows stay in range. -/
theorem countersInRange_three : CountersInRange 2 (List.replicate 3 [false, true]) :=
  (countersInRange_iff (by decide) (by decide) (by decide)).mpr (by decide)

/-- 64 copies of a bin that is 0 on one row and 1 on the other: `GetEntropy` builds a
vector without slots. -/
theorem not_countersInRange_sixtyFour : ¬ CountersInRange 2 (List.replicate 64 [false, true]) := by
  rintro ⟨ec, added, ⟨c, built, inRange⟩, -⟩
  obtain ⟨ec', added', held⟩ := @addBins_packs 2 (List.replicate 64 [false, true])
    (by decide) (by decide)
  obtain rfl : ec' = ec := Except.ok.inj (added'.symm.trans added)
  obtain ⟨c', built', iff⟩ := held.counter_inRange (by decide) (by decide)
  obtain rfl : c' = c := Except.ok.inj (built'.symm.trans built)
  exact iff.mp inRange (by decide)

/-! ### The value -/

/-- `GetEntropy` with the choice of the counter as a parameter. -/
noncomputable def getEntropyWith (build : UInt64 → UInt64 → IFrequencyCounter)
    (ec : TEntropyCalculator) : Except Failure ℝ := do
  let (low, high) ← minMaxElement ec.values
  countWith (build low high) ec.values

/-- `GetEntropyWithExtraBin` with the choice of the counter as a parameter. -/
noncomputable def getEntropyWithExtraBinWith (build : UInt64 → UInt64 → IFrequencyCounter)
    (ec : TEntropyCalculator) (bin : TBin) : Except Failure ℝ := do
  let (low, high) ← minMaxElement ec.values
  countWith (build (2 * low) (2 * high + 1)) (ec.extraValues bin)

/-- The three ways to count a column: as the code chooses, in a vector, in a hash map. -/
def builders : List (UInt64 → UInt64 → IFrequencyCounter) :=
  [buildFrequencyCounter, fun low high => .vector (.ofRange low high), fun _ _ => .hashMap ⟨[]⟩]

/-- Every way to count gives the empirical entropy when the range does not wrap. -/
theorem countWith_builders {values : List UInt64} {low high : UInt64}
    (between : ∀ v ∈ values, low ≤ v ∧ v ≤ high)
    (fine : ¬ (low.toNat = 0 ∧ high.toNat = 2 ^ 64 - 1)) {build : UInt64 → UInt64 → IFrequencyCounter}
    (mem : build ∈ builders) :
    countWith (build low high) values = .ok (Empirical.entropy (column values)) := by
  simp only [builders, List.mem_cons, List.not_mem_nil, or_false] at mem
  rcases mem with rfl | rfl | rfl
  · exact countWith_build fun v hv =>
      (buildFrequencyCounter_inRange_iff (between v hv).1 (between v hv).2).mpr fine
  · exact countWith_vector fun v hv =>
      (ofRange_inRange_iff (between v hv).1 (between v hv).2).mpr fine
  · exact countWith_hashMap values

theorem Packs.getEntropyWith (held : ec.Packs n bins) (pos : 0 < n) (few : bins.length ≤ 63)
    {build : UInt64 → UInt64 → IFrequencyCounter} (mem : build ∈ builders) :
    ec.getEntropyWith build = .ok (jointEntropy n bins) := by
  obtain ⟨low, high, found, between, wraps⟩ := held.range pos (by omega)
  have fine : ¬ (low.toNat = 0 ∧ high.toNat = 2 ^ 64 - 1) := fun h => by
    have := wraps.mp h
    omega
  simp only [TEntropyCalculator.getEntropyWith, found, ok_bind]
  rw [countWith_builders between fine mem, held.values, entropy_column_codes (by omega)]

theorem Packs.getEntropyWithExtraBinWith (held : ec.Packs n bins) (pos : 0 < n)
    (few : bins.length ≤ 62) (length : bin.length = n)
    {build : UInt64 → UInt64 → IFrequencyCounter} (mem : build ∈ builders) :
    ec.getEntropyWithExtraBinWith build bin = .ok (jointEntropy n (bins ++ [bin])) := by
  obtain ⟨low, high, found, between, wraps⟩ := held.extraRange pos (by omega) bin
  have fine : ¬ ((2 * low).toNat = 0 ∧ (2 * high + 1).toNat = 2 ^ 64 - 1) := fun h => by
    have := wraps.mp h
    omega
  simp only [TEntropyCalculator.getEntropyWithExtraBinWith, found, ok_bind]
  rw [countWith_builders between fine mem, held.extraValues length (by omega),
    entropy_column_codes (by simp; omega)]

/-- `GetEntropy` on at most 63 bins. -/
theorem Packs.getEntropy (held : ec.Packs n bins) (pos : 0 < n) (few : bins.length ≤ 63) :
    ec.getEntropy = .ok (jointEntropy n bins) := by
  rw [← held.getEntropyWith pos few (show buildFrequencyCounter ∈ builders by simp [builders])]
  simp [TEntropyCalculator.getEntropy, TEntropyCalculator.getEntropyWith, counter]

/-- `GetEntropyWithExtraBin` on at most 62 bins. -/
theorem Packs.getEntropyWithExtraBin (held : ec.Packs n bins) (pos : 0 < n) (few : bins.length ≤ 62)
    (length : bin.length = n) :
    ec.getEntropyWithExtraBin bin = .ok (jointEntropy n (bins ++ [bin])) := by
  have size : ¬ bin.length ≠ ec.values.length := by simp [held.values, length]
  rw [← held.getEntropyWithExtraBinWith pos few length
    (show buildFrequencyCounter ∈ builders by simp [builders]), TEntropyCalculator.getEntropyWithExtraBin, if_neg size]
  simp [TEntropyCalculator.getEntropyWithExtraBinWith, extraCounter]

/-- `GetEntropy()` after adding `bins`, counting with `build`. -/
noncomputable def entropyAfterWith (build : UInt64 → UInt64 → IFrequencyCounter) (n : ℕ)
    (bins : List TBin) : Except Failure ℝ := do
  (← addBins n bins).getEntropyWith build

/-- `GetEntropyWithExtraBin(bin)` after adding `bins`, counting with `build`. -/
noncomputable def extraEntropyAfterWith (build : UInt64 → UInt64 → IFrequencyCounter) (n : ℕ)
    (bins : List TBin) (bin : TBin) : Except Failure ℝ := do
  (← addBins n bins).getEntropyWithExtraBinWith build bin

/-- `GetEntropy()` after adding `bins`. -/
noncomputable def entropyAfter (n : ℕ) (bins : List TBin) : Except Failure ℝ := do
  (← addBins n bins).getEntropy

/-- `GetEntropyWithExtraBin(bin)` after adding `bins`. -/
noncomputable def extraEntropyAfter (n : ℕ) (bins : List TBin) (bin : TBin) :
    Except Failure ℝ := do
  (← addBins n bins).getEntropyWithExtraBin bin

theorem entropyAfter_eq (pos : 0 < n) (few : bins.length ≤ 63)
    (length : ∀ bin ∈ bins, bin.length = n) : entropyAfter n bins = .ok (jointEntropy n bins) := by
  obtain ⟨ec, added, held⟩ := addBins_packs length (by omega)
  rw [entropyAfter, added, ok_bind, held.getEntropy pos few]

theorem extraEntropyAfter_eq (pos : 0 < n) (few : bins.length ≤ 62)
    (length : ∀ bin ∈ bins, bin.length = n) (binLength : bin.length = n) :
    extraEntropyAfter n bins bin = .ok (jointEntropy n (bins ++ [bin])) := by
  obtain ⟨ec, added, held⟩ := addBins_packs length (by omega)
  rw [extraEntropyAfter, added, ok_bind, held.getEntropyWithExtraBin pos few binLength]

/-- `Entropy(FlattenBins(bins))` is the joint entropy too. -/
theorem entropyOfValues_flattenBins (pos : 0 < n) (some : bins ≠ []) (few : bins.length ≤ 64)
    (length : ∀ bin ∈ bins, bin.length = n) :
    entropyOfValues (flattenBins bins) = jointEntropy n bins := by
  rw [flattenBins_eq pos some length, entropyOfValues_codes few]

/-- **The incremental entropy is the joint empirical entropy**: the sum over the distinct
rows, however it is counted, whether the last bin was added or passed as an extra bin,
and unchanged by reordering or complementing bins and by permuting rows. -/
theorem incremental_entropy_eq (pos : 0 < n) (few : bins.length ≤ 62)
    (length : ∀ bin ∈ bins, bin.length = n) (binLength : bin.length = n) :
    entropyAfter n bins = .ok (-∑ r ∈ Finset.univ.image fun i : Fin n => row bins i,
      ((Finset.univ.filter fun i : Fin n => row bins i = r).card / n : ℝ) *
        Real.logb 2 ((Finset.univ.filter fun i : Fin n => row bins i = r).card / n)) ∧
    extraEntropyAfter n bins bin = entropyAfter n (bins ++ [bin]) ∧
    (∀ build ∈ builders, entropyAfterWith build n bins = entropyAfter n bins ∧
      extraEntropyAfterWith build n bins bin = extraEntropyAfter n bins bin) ∧
    (bins ≠ [] → entropyAfter n bins = .ok (entropyOfValues (flattenBins bins))) ∧
    extraEntropyAfter n bins bin = .ok (entropyOfValues (flattenBins (bins ++ [bin]))) ∧
    (∀ bins', bins'.Perm bins → entropyAfter n bins' = entropyAfter n bins) ∧
    (∀ bins' bin', (bins' ++ [bin']).Perm (bins ++ [bin]) →
      extraEntropyAfter n bins' bin' = extraEntropyAfter n bins bin) ∧
    (∀ flag, entropyAfter n (complementBins flag bins) = entropyAfter n bins ∧
      extraEntropyAfter n (complementBins flag bins) bin = extraEntropyAfter n bins bin ∧
      extraEntropyAfter n (complementBins flag bins) (bin.map not) = extraEntropyAfter n bins bin) ∧
    ∀ σ : Equiv.Perm (Fin n), entropyAfter n (bins.map (permuteRows σ)) = entropyAfter n bins ∧
      extraEntropyAfter n (bins.map (permuteRows σ)) (permuteRows σ bin) =
        extraEntropyAfter n bins bin := by
  have value := entropyAfter_eq pos (show bins.length ≤ 63 by omega) length
  have extraValue := extraEntropyAfter_eq pos few length binLength
  have extended : ∀ b ∈ bins ++ [bin], b.length = n := by
    intro b hb
    rcases List.mem_append.mp hb with hb | hb
    · exact length b hb
    · rw [List.mem_singleton.mp hb, binLength]
  refine ⟨?_, ?_, fun build mem => ⟨?_, ?_⟩, fun some => ?_, ?_, fun bins' perm => ?_,
    fun bins' bin' perm => ?_, fun flag => ⟨?_, ?_, ?_⟩, fun σ => ⟨?_, ?_⟩⟩
  · rw [value, jointEntropy, Empirical.entropy, Fintype.card_fin]
    rfl
  · rw [extraValue, entropyAfter_eq pos (by simp; omega) extended]
  · obtain ⟨ec, added, held⟩ := addBins_packs length (by omega)
    rw [value, entropyAfterWith, added, ok_bind, held.getEntropyWith pos (by omega) mem]
  · obtain ⟨ec, added, held⟩ := addBins_packs length (by omega)
    rw [extraValue, extraEntropyAfterWith, added, ok_bind,
      held.getEntropyWithExtraBinWith pos few binLength mem]
  · rw [value, entropyOfValues_flattenBins pos some (by omega) length]
  · rw [extraValue, entropyOfValues_flattenBins pos (by simp) (by simp; omega) extended]
  · rw [value, entropyAfter_eq pos (by rw [perm.length_eq]; omega)
      fun b hb => length b (perm.mem_iff.mp hb), jointEntropy_perm perm]
  · have same := perm.length_eq
    have all : ∀ b ∈ bins' ++ [bin'], b.length = n := fun b hb => extended b (perm.mem_iff.mp hb)
    rw [List.forall_mem_append] at all
    rw [extraValue, extraEntropyAfter_eq pos (by simp at same; omega) all.1
      (all.2 bin' (List.mem_singleton_self _)), jointEntropy_perm perm]
  · rw [value, entropyAfter_eq pos (by simp; omega) (length_of_mem_complementBins length),
      jointEntropy_complementBins flag length]
  · rw [extraValue, extraEntropyAfter_eq pos (by simpa using few)
      (length_of_mem_complementBins length) binLength]
    rw [jointEntropy_congr (complementBins_samePartition flag length |>.append fun _ _ _ _ => Iff.rfl)]
  · rw [extraValue, extraEntropyAfter_eq pos (by simpa using few)
      (length_of_mem_complementBins length) (by simpa using binLength)]
    rw [jointEntropy_congr
      (complementBins_samePartition flag length |>.append (samePartition_not binLength))]
  · rw [value, entropyAfter_eq pos (by simp; omega) (by simp), jointEntropy_permuteRows]
  · rw [extraValue, extraEntropyAfter_eq pos (by simpa using few) (by simp) (by simp),
      ← List.map_singleton, ← List.map_append, jointEntropy_permuteRows]

/-- Two bins over four rows, with an extra bin and in the other order. -/
theorem incremental_entropy_fourRows :
    extraEntropyAfter 4 [[false, false, true, true], [false, true, false, true]] [false, false, false, true] =
        entropyAfter 4 [[false, false, true, true], [false, true, false, true], [false, false, false, true]] ∧
      entropyAfter 4 [[false, false, true, true], [false, true, false, true]] =
        .ok (entropyOfValues (flattenBins [[false, false, true, true], [false, true, false, true]])) ∧
      entropyAfter 4 [[false, true, false, true], [false, false, true, true]] =
        entropyAfter 4 [[false, false, true, true], [false, true, false, true]] := by
  obtain ⟨-, extra, -, batch, -, reordered, -⟩ := @incremental_entropy_eq 4
    [[false, false, true, true], [false, true, false, true]] [false, false, false, true] (by decide) (by decide)
    (by decide) (by decide)
  exact ⟨extra, batch (by decide), reordered _ (.swap ..)⟩

/-! ### Up to the order of the bins -/

/-- The calculator packs the given bins in some order. -/
def Holds (ec : TEntropyCalculator) (n : ℕ) (bins : List TBin) : Prop :=
  ∃ ordered, ec.Packs n ordered ∧ ordered.Perm bins

theorem ofSize_holds (n : ℕ) : (ofSize n).Holds n [] := ⟨[], ofSize_packs n, .refl _⟩

variable {bins' : List TBin}

theorem Holds.perm (held : ec.Holds n bins) (perm : bins.Perm bins') : ec.Holds n bins' := by
  obtain ⟨ordered, packs, same⟩ := held
  exact ⟨ordered, packs, same.trans perm⟩

theorem Holds.addBin (held : ec.Holds n bins) (length : bin.length = n) (room : bins.length < 64) :
    ∃ ec', ec.addBin bin = .ok ec' ∧ ec'.Holds n (bins ++ [bin]) := by
  obtain ⟨ordered, packs, same⟩ := held
  obtain ⟨ec', added, packs'⟩ := packs.addBin length (by rwa [same.length_eq])
  exact ⟨ec', added, _, packs', same.append_right _⟩

/-- `AddBin` accepts only bins of the right size, and at most 64 of them. -/
theorem Holds.of_addBin {ec' : TEntropyCalculator} (held : ec.Holds n bins)
    (added : ec.addBin bin = .ok ec') : bin.length = n ∧ bins.length < 64 := by
  obtain ⟨ordered, packs, same⟩ := held
  have length : ec.values.length = n := by rw [packs.values, codes_length]
  have count := packs.binCount
  unfold TEntropyCalculator.addBin at added
  split at added
  · cases added
  case isFalse size =>
    split at added
    · cases added
    case isFalse room =>
      rw [← same.length_eq]
      unfold maxBinCount at room
      exact ⟨by omega, by omega⟩

theorem Holds.getEntropy (held : ec.Holds n bins) (pos : 0 < n) (few : bins.length ≤ 63) :
    ec.getEntropy = .ok (jointEntropy n bins) := by
  obtain ⟨ordered, packs, same⟩ := held
  rw [packs.getEntropy pos (by rwa [same.length_eq]), jointEntropy_perm same]

/-- Whatever `GetEntropy` returns is the joint entropy. -/
theorem Holds.of_getEntropy {result : ℝ} (held : ec.Holds n bins) (few : bins.length ≤ 64)
    (returned : ec.getEntropy = .ok result) : 0 < n ∧ result = jointEntropy n bins := by
  obtain ⟨ordered, packs, same⟩ := held
  obtain ⟨counter, built, counted⟩ := bind_eq_ok.mp returned
  obtain ⟨⟨low, high⟩, found, last⟩ := bind_eq_ok.mp built
  cases last
  have pos : 0 < n := by
    refine Nat.pos_of_ne_zero fun zero => ?_
    subst zero
    simp [packs.values, codes, minMaxElement] at found
  rw [countWith_of_ok counted, packs.values, entropy_column_codes (by rwa [same.length_eq]),
    jointEntropy_perm same]
  exact ⟨pos, rfl⟩

/-- Whatever `GetEntropyWithExtraBin` returns is the joint entropy with the extra bin. -/
theorem Holds.of_getEntropyWithExtraBin {result : ℝ} (held : ec.Holds n bins) (few : bins.length ≤ 63)
    (returned : ec.getEntropyWithExtraBin bin = .ok result) : 0 < n ∧ result = jointEntropy n (bins ++ [bin]) := by
  obtain ⟨ordered, packs, same⟩ := held
  unfold TEntropyCalculator.getEntropyWithExtraBin at returned
  obtain ⟨size, returned⟩ := guard_eq_ok.mp returned
  obtain ⟨counter, built, counted⟩ := bind_eq_ok.mp returned
  obtain ⟨⟨low, high⟩, found, last⟩ := bind_eq_ok.mp built
  cases last
  have pos : 0 < n := by
    refine Nat.pos_of_ne_zero fun zero => ?_
    subst zero
    simp [packs.values, codes, minMaxElement] at found
  have length : bin.length = n := by
    simpa [packs.values] using size
  have room : ordered.length ≤ 63 := by rwa [same.length_eq]
  rw [countWith_of_ok counted, packs.extraValues length (by omega), entropy_column_codes (by simp; omega),
    jointEntropy_perm (same.append_right _)]
  exact ⟨pos, rfl⟩

/-- The range of 64 bins with both extreme rows has a size that wraps to 0. -/
def Wraps (n : ℕ) (bins : List TBin) : Prop :=
  bins.length = 64 ∧ HasConstantRow n bins false ∧ HasConstantRow n bins true

theorem wraps_perm (perm : bins.Perm bins') : Wraps n bins ↔ Wraps n bins' := by
  simp only [Wraps, HasConstantRow, perm.length_eq, perm.mem_iff]

/-- `GetEntropy` on all the bins that are admitted: it returns unless the range wraps. -/
theorem Holds.getEntropy_iff (held : ec.Holds n bins) (pos : 0 < n) (few : bins.length ≤ 64) :
    (¬ Wraps n bins → ec.getEntropy = .ok (jointEntropy n bins)) ∧
      ∀ result : ℝ, ec.getEntropy = .ok result → ¬ Wraps n bins := by
  obtain ⟨ordered, packs, same⟩ := held
  rw [← same.length_eq] at few
  rw [← wraps_perm same, ← jointEntropy_perm same]
  obtain ⟨low, high, found, between, wraps⟩ := packs.range pos few
  have unfolded : ec.getEntropy = countWith (R := ℝ) (buildFrequencyCounter low high) ec.values := by
    simp [TEntropyCalculator.getEntropy, counter, found]
  have inRange := inRange_all_iff (packs.values_ne_nil pos) between
  rw [unfolded, Wraps, ← wraps]
  refine ⟨fun fine => ?_, fun result counted => inRange.mp (inRange_of_countWith counted)⟩
  rw [countWith_build (inRange.mpr fine), packs.values, entropy_column_codes few]

theorem Holds.getEntropyWithExtraBin (held : ec.Holds n bins) (pos : 0 < n) (few : bins.length ≤ 62)
    (length : bin.length = n) :
    ec.getEntropyWithExtraBin bin = .ok (jointEntropy n (bins ++ [bin])) := by
  obtain ⟨ordered, packs, same⟩ := held
  rw [packs.getEntropyWithExtraBin pos (by rwa [same.length_eq]) length,
    jointEntropy_perm (same.append_right _)]

end TEntropyCalculator

end Cmicot
