import Cmicot.BinIndex
import Mathlib.Data.List.GetD
import Mathlib.Data.List.Induction
import Mathlib.Data.Rat.Cast.Order
import Mathlib.Tactic.Linarith

/-!
Binarization (`binarize.h`, `binarize.cpp`).

`BinarizeFeature` turns a column into one bin per border; `BinarizeWithMap` takes columns
that are binary already and groups them by the feature the map gives for each. Values are
exact rationals. `UniteLabelBins` packs the bins of the label into one number per row, with
shifts that are made at the width of an `int`.

* `binary_iff_of_binarizeValue`: which accepted values are 0 or 1.
* `binarizeWithMap_spec`: the features of an accepted pool, with a feature for every index up
  to the largest one of the map, whether or not a bin belongs to it.
* `uniteLabelBins_encodes_iff`: when the numbers of `UniteLabelBins` hold the label bins.
-/

namespace Cmicot

open Loop

/-! ### Definitions -/

/-- The borders of a column, in the order in which the hash set gives them. -/
abbrev TBorderBuilder := List ℚ → List ℚ

/-- `BinarizeFeature(feature, borderBuilder)`. -/
def binarizeFeature (feature : List ℚ) (borderBuilder : TBorderBuilder) : List TBin :=
  let borders := borderBuilder feature
  if borders = [] then [List.replicate feature.length false]
  else borders.map fun border => feature.map fun x => decide (x > border)

/-- `bit << binIndex` added to a `ui64`: the bit is promoted to `int`, the shift is one of
32 bits, and the result is extended with its sign. -/
def shiftBit (bit : Bool) (binIndex : ℕ) : Except Failure UInt64 :=
  if binIndex < 32 then .ok ⟨(BitVec.ofNat 32 bit.toNat <<< binIndex).signExtend 64⟩
  else .error .shiftRange

/-- The inner loop of `UniteLabelBins`. -/
def uniteBin (result : List UInt64) (bin : TBin × ℕ) : Except Failure (List UInt64) :=
  result.zipIdx.mapM fun entry => do
    match bin.1[entry.2]? with
    | none => throw .rowRange
    | some bit => return entry.1 ||| (← shiftBit bit bin.2)

/-- `UniteLabelBins(binarizedLabel)`. -/
def uniteLabelBins (binarizedLabel : List TBin) : Except Failure (List UInt64) :=
  match binarizedLabel with
  | [] => .error .emptyContainer
  | front :: _ => binarizedLabel.zipIdx.foldlM uniteBin (List.replicate front.length 0)

/-- `static_cast<ui32>(value)`: the value is truncated towards zero to 64 bits, of which the lower 32 are
kept. What lies outside gives 2^63 on x86-64, with the lower bits 0; the language leaves it open. -/
def castUi32 (value : ℚ) : ℕ :=
  let truncated := value.num.tdiv value.den
  if -2 ^ 63 ≤ truncated ∧ truncated < 2 ^ 63 then (truncated % 2 ^ 32).toNat else 0

/-- One value of an explanatory column. -/
def binarizeValue (value : ℚ) : Except Failure Bool := do
  if ¬ castUi32 value ≤ 1 then throw (.notBinary value)
  return castUi32 value ≠ 0

/-- `*MaxElement(begin, end)`. -/
def maxElement : List ℤ → Except Failure ℤ
  | [] => .error .emptyContainer
  | x :: xs => .ok (xs.foldl max x)

/-- `features[binToFeatureMap[i]].push_back(std::move(poolBins[i]))`. -/
def pushBin (features : List (List TBin)) (entry : TBin × ℤ) : Except Failure (List (List TBin)) :=
  if 0 ≤ entry.2 ∧ entry.2 < features.length then
    .ok (features.modify entry.2.toNat (· ++ [entry.1]))
  else .error .featureRange

/-- `AddFeature` for one list of bins after another. -/
def addFeatures (features : List (List TBin)) : TBinFeatureSet :=
  features.foldl (fun result bins => (result.addFeature bins).1) .empty

/-- `BinarizeWithMap(begin, end, binToFeatureMap)`. -/
def binarizeWithMap (columns : List (List ℚ)) (binToFeatureMap : List ℤ) :
    Except Failure TBinFeatureSet := do
  let poolBins ← columns.mapM fun column => column.mapM binarizeValue
  if poolBins.length ≠ binToFeatureMap.length then
    throw (.mapSize poolBins.length binToFeatureMap.length)
  let featureCount ← maxElement binToFeatureMap
  if ¬ featureCount + 1 < 2 ^ 31 then throw .intOverflow
  if featureCount + 1 < 0 then throw .lengthError
  let features ← (poolBins.zip binToFeatureMap).foldlM pushBin
    (List.replicate (featureCount + 1).toNat [])
  return addFeatures features

/-! ### Accepted values -/

theorem of_binarizeValue {value : ℚ} {bit : Bool} (accepted : binarizeValue value = .ok bit) :
    castUi32 value ≤ 1 := by
  unfold binarizeValue at accepted
  exact not_not.mp (guard_eq_ok.mp accepted).1

/-- The conversion keeps whole numbers that fit. -/
theorem castUi32_of_fits {value : ℚ} (whole : value.den = 1) (low : 0 ≤ value.num) (high : value.num < 2 ^ 32) :
    castUi32 value = value.num.toNat := by
  simp only [castUi32, whole, Nat.cast_one, Int.tdiv_one]
  rw [if_pos (by omega), Int.emod_eq_of_lt low high]

/-- **An accepted value** is 0 or 1 iff it is a whole number of 32 bits. -/
theorem binary_iff_of_binarizeValue {value : ℚ} {bit : Bool} (accepted : binarizeValue value = .ok bit) :
    (value = 0 ∨ value = 1) ↔ value.den = 1 ∧ 0 ≤ value.num ∧ value.num < 2 ^ 32 := by
  constructor
  · rintro (rfl | rfl) <;> decide
  · rintro ⟨whole, low, high⟩
    have small := of_binarizeValue accepted
    rw [castUi32_of_fits whole low high] at small
    have eq : value = value.num := ((Rat.den_eq_one_iff value).mp whole).symm
    rcases (by omega : value.num = 0 ∨ value.num = 1) with zero | one
    · exact .inl (by rw [eq, zero, Int.cast_zero])
    · exact .inr (by rw [eq, one, Int.cast_one])

theorem maxElement_spec {xs : List ℤ} {largest : ℤ} (found : maxElement xs = .ok largest) :
    largest ∈ xs ∧ ∀ x ∈ xs, x ≤ largest := by
  cases xs with
  | nil => cases found
  | cons x xs =>
    cases found
    induction xs using List.reverseRecOn with
    | nil => simp
    | append_singleton xs y ih =>
      obtain ⟨mem, bound⟩ := ih
      rw [List.foldl_append, List.foldl_cons, List.foldl_nil]
      refine ⟨?_, fun z hz => ?_⟩
      · rcases max_choice (xs.foldl max x) y with same | same <;> rw [same]
        · rw [← List.cons_append]
          exact List.mem_append_left _ mem
        · simp
      · rw [← List.cons_append] at hz
        rcases List.mem_append.mp hz with hz | hz
        · exact le_max_of_le_left (bound z hz)
        · rw [List.mem_singleton.mp hz]
          exact le_max_right ..

/-! ### Features of an accepted pool -/

section Features

variable {features : List (List TBin)} {done : List (TBin × ℤ)} {count : ℕ}

theorem addFeatures_concat (features : List (List TBin)) (bins : List TBin) :
    addFeatures (features ++ [bins]) = ((addFeatures features).addFeature bins).1 := by
  simp [addFeatures]

theorem built_addFeatures (features : List (List TBin)) : (addFeatures features).Built features := by
  induction features using List.reverseRecOn with
  | nil => exact .empty
  | append_singleton features bins ih =>
    rw [addFeatures_concat]
    exact ih.addFeature bins

theorem getFeatureCount_addFeatures (features : List (List TBin)) :
    (addFeatures features).getFeatureCount = features.length := (built_addFeatures features).getFeatureCount

/-- The features are read back in the order in which they were added. -/
theorem getFeature_addFeatures {f : ℕ} {bins : List TBin} (at_f : features[f]? = some bins) :
    (addFeatures features).getFeature f = .ok bins := (built_addFeatures features).getFeature at_f

theorem bins_addFeatures (features : List (List TBin)) : (addFeatures features).bins = features.flatten :=
  (built_addFeatures features).bins

/-- What the vector of features holds while the bins are distributed. -/
def Distributes (count : ℕ) (done : List (TBin × ℤ)) (features : List (List TBin)) : Prop :=
  features = (List.range count).map fun f : ℕ => (done.filter fun entry => entry.2 = (f : ℤ)).map Prod.fst

theorem Distributes.pushBin {entry : TBin × ℤ} {features' : List (List TBin)}
    (held : Distributes count done features) (pushed : pushBin features entry = .ok features') :
    (0 ≤ entry.2 ∧ entry.2 < count) ∧ Distributes count (done ++ [entry]) features' := by
  have length : features.length = count := by
    rw [held, List.length_map, List.length_range]
  unfold Cmicot.pushBin at pushed
  split at pushed
  case isFalse => cases pushed
  case isTrue inside =>
    cases pushed
    refine ⟨length ▸ inside, ?_⟩
    obtain ⟨f, eq⟩ : ∃ f : ℕ, entry.2 = f := ⟨entry.2.toNat, by omega⟩
    rw [Distributes, held]
    apply List.ext_getElem
    · simp
    · intro i h h'
      simp only [List.getElem_modify, List.getElem_map, List.getElem_range, List.filter_append,
        List.map_append, eq, Int.toNat_natCast]
      by_cases same : f = i
      · subst same
        simp [eq]
      · simp [eq, same]

/-- If all bins can be distributed, there is a feature for each. -/
theorem distributes_of_foldlM {count : ℕ} {entries : List (TBin × ℤ)} {features : List (List TBin)}
    (distributed : entries.foldlM pushBin (List.replicate count []) = .ok features) :
    Distributes count entries features ∧ ∀ entry ∈ entries, 0 ≤ entry.2 ∧ entry.2 < count := by
  refine foldlM_inv (P := fun done features => Distributes count done features ∧
    ∀ entry ∈ done, 0 ≤ entry.2 ∧ entry.2 < count) distributed ⟨by simp [Distributes], by simp⟩ ?_
  rintro done entry _ _ - ⟨held, inside⟩ pushed
  obtain ⟨here, held'⟩ := held.pushBin pushed
  refine ⟨held', fun other mem => ?_⟩
  rcases List.mem_append.mp mem with mem | mem
  · exact inside other mem
  · rw [List.mem_singleton.mp mem]
    exact here

/-- **An accepted pool**: its values are accepted, it has a feature for every index up to the largest
one of the map, and a feature has bins iff the map names it. -/
theorem binarizeWithMap_spec {columns : List (List ℚ)} {map : List ℤ} {n : ℕ} {result : TBinFeatureSet}
    (rows : ∀ column ∈ columns, column.length = n)
    (accepted : binarizeWithMap columns map = .ok result) :
    (∀ column ∈ columns, ∀ value ∈ column, ∃ bit, binarizeValue value = .ok bit) ∧
      (∀ bin ∈ result.bins, bin.length = n) ∧ (∀ f ∈ map, 0 ≤ f ∧ f < result.getFeatureCount) ∧
      ((result.getFeatureCount : ℤ) - 1 ∈ map) ∧
      ∀ f < result.getFeatureCount, ∃ bins, result.getFeature f = .ok bins ∧ (bins ≠ [] ↔ (f : ℤ) ∈ map) := by
  obtain ⟨poolBins, binarized, rest⟩ := bind_eq_ok.mp accepted
  obtain ⟨sizes, rest⟩ := guard_eq_ok.mp rest
  obtain ⟨featureCount, largest, rest⟩ := bind_eq_ok.mp rest
  obtain ⟨-, rest⟩ := guard_eq_ok.mp rest
  obtain ⟨-, rest⟩ := guard_eq_ok.mp rest
  obtain ⟨features, distributed, last⟩ := bind_eq_ok.mp rest
  cases last
  obtain ⟨-, binned, calls⟩ := mapM_inv binarized
  have lengths : poolBins.length = map.length := not_not.mp sizes
  set entries := poolBins.zip map
  have names : entries.map Prod.snd = map := List.map_snd_zip (by omega)
  obtain ⟨held, inside⟩ := distributes_of_foldlM distributed
  have named : ∀ f ∈ map, 0 ≤ f ∧ f < ((featureCount + 1).toNat : ℤ) := fun f mem => by
    rw [← names] at mem
    obtain ⟨entry, listed, rfl⟩ := List.mem_map.mp mem
    exact inside entry listed
  have count : (addFeatures features).getFeatureCount = (featureCount + 1).toNat := by
    rw [getFeatureCount_addFeatures, held, List.length_map, List.length_range]
  obtain ⟨mem, -⟩ := maxElement_spec largest
  refine ⟨fun column hc value hv => ?_, fun bin hb => ?_, by rwa [count], ?_, fun f lt => ?_⟩
  · obtain ⟨bins, -, called⟩ := binned column hc
    obtain ⟨bit, -, accepted⟩ := (mapM_inv called).2.1 value hv
    exact ⟨bit, accepted⟩
  · rw [bins_addFeatures, held, List.mem_flatten] at hb
    obtain ⟨_, hf, hb⟩ := hb
    obtain ⟨f, -, rfl⟩ := List.mem_map.mp hf
    obtain ⟨entry, hentry, rfl⟩ := List.mem_map.mp hb
    have hbin : entry.1 ∈ poolBins := (List.of_mem_zip (List.mem_of_mem_filter hentry)).1
    obtain ⟨column, hc, called⟩ := calls _ hbin
    rw [(mapM_inv called).1, rows column hc]
  · rw [count]
    have := named featureCount mem
    rwa [show (((featureCount + 1).toNat : ℤ)) - 1 = featureCount by omega]
  · rw [count] at lt
    refine ⟨(entries.filter fun entry => entry.2 = (f : ℤ)).map Prod.fst,
      getFeature_addFeatures (by rw [held]; simp [lt]), ?_⟩
    rw [← names]
    simp

end Features

/-! ### Uniting the label bins -/

section Unite

variable {bins done : List TBin} {bin : TBin} {values : List UInt64} {n k : ℕ}

/-- The bits of a shifted bit: above position 31 stands the sign. -/
theorem shiftBit_spec (bit : Bool) (small : k < 32) :
    ∃ word, shiftBit bit k = .ok word ∧
      ∀ j, word.toNat.testBit j = (bit && decide (min j 31 = k ∧ j < 64)) := by
  refine ⟨_, if_pos small, fun j => ?_⟩
  change Nat.testBit (BitVec.toNat _) j = _
  rw [← BitVec.getLsbD, BitVec.getLsbD_signExtend, Bool.eq_iff_iff]
  cases bit with
  | false => simp
  | true =>
    simp only [BitVec.getLsbD_shiftLeft, BitVec.msb_eq_getLsbD_last, Bool.toNat_true,
      BitVec.getLsbD_one, Bool.and_eq_true, decide_eq_true_eq, Bool.true_and]
    split
    · simp
      omega
    · simp
      omega

/-- Row `i` of the united bins: bit `j` is the one of bin `j`, and bin 31 fills the rest. -/
def United (done : List TBin) (values : List UInt64) : Prop :=
  ∀ i < values.length, ∀ j, (values.getD i 0).toNat.testBit j =
    ((done.getD (min j 31) []).getD i false && decide (j < 64))

theorem United.uniteBin (held : United done values) (size : values.length = bin.length)
    (small : done.length < 32) :
    ∃ values', uniteBin values (bin, done.length) = .ok values' ∧ values'.length = values.length ∧
      United (done ++ [bin]) values' := by
  have word (i : ℕ) : ∃ word, shiftBit (bin.getD i false) done.length = .ok word ∧
      ∀ j, word.toNat.testBit j = (bin.getD i false && decide (min j 31 = done.length ∧ j < 64)) :=
    shiftBit_spec _ small
  choose word shifted bits using word
  refine ⟨values.zipIdx.map fun entry => entry.1 ||| word entry.2, ?_, by simp, ?_⟩
  · unfold Cmicot.uniteBin
    refine mapM_ok fun entry mem => ?_
    have inside := List.snd_lt_of_mem_zipIdx mem
    have at_row : bin[entry.2]? = some (bin.getD entry.2 false) := by
      rw [List.getD_eq_getElem?_getD, List.getElem?_eq_getElem (by omega), Option.getD_some]
    simp only [at_row, shifted, ok_bind, pure_eq_ok]
  · intro i inside j
    have lt : i < values.length := by simpa using inside
    have value : (values.zipIdx.map fun entry => entry.1 ||| word entry.2).getD i 0 =
        values.getD i 0 ||| word i := by
      simp [lt]
    rw [value, UInt64.toNat_or, Nat.testBit_or, held i lt j, bits]
    rcases Nat.lt_trichotomy (min j 31) done.length with before | here | after
    · simp [List.getElem?_append_left before, Nat.ne_of_lt before]
    · simp [here]
    · have out : done.getD (min j 31) [] = [] := List.getD_eq_default _ _ (by omega)
      have out' : (done ++ [bin]).getD (min j 31) [] = [] := List.getD_eq_default _ _ (by simp; omega)
      rw [out, out']
      simp [after.ne']

theorem foldlM_uniteBin_concat (done : List TBin) (bin : TBin) (start : List UInt64) :
    (done ++ [bin]).zipIdx.foldlM uniteBin start =
      (done.zipIdx.foldlM uniteBin start >>= fun values => uniteBin values (bin, done.length)) := by
  rw [List.zipIdx_append, List.foldlM_append]
  simp only [List.zipIdx_singleton, List.foldlM_cons, List.foldlM_nil, bind_pure, Nat.zero_add]

/-- At most 32 bins are united without an error. -/
theorem foldlM_uniteBin_ok (length : ∀ bin ∈ bins, bin.length = n) (few : bins.length ≤ 32) :
    ∃ values, bins.zipIdx.foldlM uniteBin (List.replicate n 0) = .ok values ∧ values.length = n ∧
      United bins values := by
  induction bins using List.reverseRecOn with
  | nil => exact ⟨_, rfl, by simp, fun i inside j => by simp at inside; simp [inside]⟩
  | append_singleton done bin ih =>
    rw [List.length_append, List.length_singleton] at few
    obtain ⟨values, folded, size, held⟩ := ih (fun b mem => length b (by simp [mem])) (by omega)
    obtain ⟨values', united, size', held'⟩ :=
      held.uniteBin (size.trans (length bin (by simp)).symm) (show done.length < 32 by omega)
    refine ⟨values', ?_, size'.trans size, held'⟩
    rw [foldlM_uniteBin_concat, folded, ok_bind, united]

/-- Without rows nothing is shifted. -/
theorem foldlM_uniteBin_nil (bins : List TBin) : bins.zipIdx.foldlM uniteBin [] = .ok [] := by
  induction bins using List.reverseRecOn with
  | nil => rfl
  | append_singleton done bin ih => rw [foldlM_uniteBin_concat, ih]; rfl

/-- With rows, the shift of bin 32 is undefined. -/
theorem length_le_of_foldlM_uniteBin (pos : 0 < n)
    (united : bins.zipIdx.foldlM uniteBin (List.replicate n 0) = .ok values) :
    bins.length ≤ 32 := by
  suffices both : values.length = n ∧ bins.length ≤ 32 from both.2
  induction bins using List.reverseRecOn generalizing values with
  | nil =>
    cases united
    exact ⟨by simp, Nat.zero_le _⟩
  | append_singleton done bin ih =>
    rw [foldlM_uniteBin_concat] at united
    obtain ⟨before, folded, last⟩ := bind_eq_ok.mp united
    obtain ⟨size, -⟩ := ih folded
    obtain ⟨size', all, -⟩ := mapM_inv last
    refine ⟨by simpa [size] using size', ?_⟩
    obtain ⟨_, -, first⟩ := all (before[0], 0) (by simp [List.mem_zipIdx_iff_getElem?])
    rw [List.length_append, List.length_singleton]
    by_contra large
    cases row : bin[0]? with
    | none => simp [row] at first
    | some bit => simp [row, shiftBit, show ¬ done.length < 32 by omega] at first

/-- The bits of the values are the label bins, and nothing else. -/
structure Encodes (n : ℕ) (bins : List TBin) (values : List UInt64) : Prop where
  size : values.length = n
  bits : ∀ i < n, ∀ j, (values.getD i 0).toNat.testBit j = (bins.getD j []).getD i false
  rows : ∀ i < n, ∀ i' < n, values.getD i 0 = values.getD i' 0 ↔
    ∀ bin ∈ bins, bin.getD i false = bin.getD i' false

/-- Rows with the same bits are rows with the same number. -/
theorem encodes_of_bits (size : values.length = n)
    (bits : ∀ i < n, ∀ j, (values.getD i 0).toNat.testBit j = (bins.getD j []).getD i false) :
    Encodes n bins values := by
  refine ⟨size, bits, fun i hi i' hi' => ?_⟩
  constructor
  · intro same bin mem
    obtain ⟨j, lt, rfl⟩ := List.mem_iff_getElem.mp mem
    have here : bins.getD j [] = bins[j] := List.getD_eq_getElem _ _ lt
    rw [← here, ← bits i hi j, ← bits i' hi' j, same]
  · intro agree
    refine UInt64.toNat_inj.mp (Nat.eq_of_testBit_eq fun j => ?_)
    rw [bits i hi j, bits i' hi' j]
    rcases Nat.lt_or_ge j bins.length with lt | ge
    · rw [List.getD_eq_getElem _ _ lt]
      exact agree _ (List.getElem_mem lt)
    · rw [List.getD_eq_default _ _ ge]
      rfl

theorem uniteLabelBins_eq (some : bins ≠ []) (length : ∀ bin ∈ bins, bin.length = n) :
    uniteLabelBins bins = bins.zipIdx.foldlM uniteBin (List.replicate n 0) := by
  cases bins with
  | nil => exact absurd rfl some
  | cons front rest => rw [uniteLabelBins, length front List.mem_cons_self]

/-- Bit 32 is the sign of the last shift; no bin has this index, so the last of 32 bins is off. -/
theorem last_off_of_encodes (length : ∀ bin ∈ bins, bin.length = n) (full : bins.length = 32)
    (folded : bins.zipIdx.foldlM uniteBin (List.replicate n 0) = .ok values) (encodes : Encodes n bins values) :
    ∀ bit ∈ bins.getD 31 [], bit = false := by
  intro bit mem
  obtain ⟨_, folded', -, united⟩ := foldlM_uniteBin_ok length full.le
  cases folded.symm.trans folded'
  obtain ⟨i, lt, rfl⟩ := List.mem_iff_getElem.mp mem
  have at_last : bins.getD 31 [] = bins[31] := List.getD_eq_getElem _ _ (by omega)
  have inside : i < n := by
    rw [at_last, length _ (List.getElem_mem _)] at lt
    exact lt
  have sign := united i (encodes.size.symm ▸ inside) 32
  have none := encodes.bits i inside 32
  rw [List.getD_eq_default bins [] full.le] at none
  rw [none, show min 32 31 = 31 from rfl, List.getD_eq_getElem _ _ lt] at sign
  simpa using sign.symm

/-- With no bin 31, or one that is off, no shift sets a sign. -/
theorem encodes_of_last_off (length : ∀ bin ∈ bins, bin.length = n) (short : bins.length ≤ 32)
    (off : ∀ bit ∈ bins.getD 31 [], bit = false) :
    ∃ values, bins.zipIdx.foldlM uniteBin (List.replicate n 0) = .ok values ∧ Encodes n bins values := by
  obtain ⟨values, folded, size, united⟩ := foldlM_uniteBin_ok length short
  refine ⟨values, folded, encodes_of_bits size fun i hi j => ?_⟩
  rw [united i (size.symm ▸ hi) j]
  rcases Nat.lt_or_ge j 31 with below | above
  · simp [Nat.min_eq_left below.le, show j < 64 by omega]
  · have last : (bins.getD 31 []).getD i false = false := by
      rcases Nat.lt_or_ge i (bins.getD 31 []).length with lt | ge
      · rw [List.getD_eq_getElem _ _ lt]
        exact off _ (List.getElem_mem lt)
      · exact List.getD_eq_default _ _ ge
    rw [Nat.min_eq_right above, last]
    rcases Nat.eq_or_lt_of_le above with rfl | beyond
    · exact last.symm
    · rw [List.getD_eq_default bins [] (by omega)]
      rfl

/-- Up to 31 bins are encoded faithfully. -/
theorem uniteLabelBins_of_few (some : bins ≠ []) (length : ∀ bin ∈ bins, bin.length = n) (few : bins.length ≤ 31) :
    ∃ values, uniteLabelBins bins = .ok values ∧ Encodes n bins values := by
  rw [uniteLabelBins_eq some length]
  refine encodes_of_last_off length (by omega) fun bit mem => ?_
  rw [List.getD_eq_default bins [] few] at mem
  exact absurd mem List.not_mem_nil

/-- **When the encoding of the label is faithful**: there are at most 31 bins, or 32 of which
the last one is false in every row, or there is no row. -/
theorem uniteLabelBins_encodes_iff (some : bins ≠ []) (length : ∀ bin ∈ bins, bin.length = n) :
    (∃ values, uniteLabelBins bins = .ok values ∧ Encodes n bins values) ↔
      n = 0 ∨ bins.length ≤ 31 ∨ bins.length = 32 ∧ ∀ bit ∈ bins.getD 31 [], bit = false := by
  rw [uniteLabelBins_eq some length]
  constructor
  · rintro ⟨values, folded, encodes⟩
    rcases Nat.eq_zero_or_pos n with zero | pos
    · exact .inl zero
    have few := length_le_of_foldlM_uniteBin pos folded
    rcases Nat.lt_or_ge bins.length 32 with lt | ge
    · exact .inr (.inl (by omega))
    · have full : bins.length = 32 := by omega
      exact .inr (.inr ⟨full, last_off_of_encodes length full folded encodes⟩)
  · rintro (zero | few | ⟨full, off⟩)
    · subst zero
      exact ⟨[], foldlM_uniteBin_nil bins, encodes_of_bits rfl fun i hi => absurd hi (Nat.not_lt_zero i)⟩
    · refine encodes_of_last_off length (by omega) fun bit mem => ?_
      rw [List.getD_eq_default bins [] few] at mem
      exact absurd mem List.not_mem_nil
    · exact encodes_of_last_off length full.le off

/-- Two label bins over three rows. -/
theorem uniteLabelBins_encodes_twoBins :
    ∃ values, uniteLabelBins [[true, false, true], [false, true, true]] = .ok values ∧
      Encodes 3 [[true, false, true], [false, true, true]] values :=
  (uniteLabelBins_encodes_iff (by decide) (by decide)).mpr (.inr (.inl (by decide)))

/-- Bin 31 of 32 sets every bit from 31 to 63. -/
theorem uniteLabelBins_signExtends :
    uniteLabelBins (List.replicate 31 [false] ++ [[true]]) = .ok [0xFFFFFFFF80000000] ∧
      ¬ ∃ values, uniteLabelBins (List.replicate 31 [false] ++ [[true]]) = .ok values ∧
        Encodes 1 (List.replicate 31 [false] ++ [[true]]) values := by
  have value : uniteLabelBins (List.replicate 31 [false] ++ [[true]]) = .ok [0xFFFFFFFF80000000] := by
    decide +kernel
  refine ⟨value, ?_⟩
  rintro ⟨values, united, encodes⟩
  cases value.symm.trans united
  have bit := encodes.bits 0 one_pos 32
  revert bit
  decide +kernel

end Unite

end Cmicot
